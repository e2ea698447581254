/-
Delta operations: the seven verbs, the path safety rules and the validator of
a decoded operation.
-/
import Hummin.JsonPath

namespace Hummin

variable {α β : Type}

namespace Delta

/-- A decoded operation.  Payloads carry the marks of the value they enter. -/
inductive Op (α : Type) where
  | r (value : JsonTree α)
  | s (path : Path) (value : JsonTree α)
  | d (path : Path)
  | a (path : Path) (text : JsString)
  | t (path : Path) (count : Nat)
  | p (path : Path) (index remove : Nat) (items : List (JsonTree α))
  | m (path : Path) (permutation : List Nat)
deriving Repr, DecidableEq

/-- How decoding or applying an operation ends without a value.  `notJson` is no
exception of the program: it marks a write that leaves an array with a hole or
a non-index key. -/
inductive Failure where
  | typeError (message : String)
  | rangeError (message : String)
  | unsafePath (segment : JsonValue)
  | pathError (path : JsonValue)
  | unknownVerb (verb : JsonValue)
  | notJson
deriving Repr, DecidableEq

/-- The segments that reach the prototype chain. -/
def reservedSegments : List JsString :=
  [js ['_', '_', 'p', 'r', 'o', 't', 'o', '_', '_'],
    js ['c', 'o', 'n', 's', 't', 'r', 'u', 'c', 't', 'o', 'r'],
    js ['p', 'r', 'o', 't', 'o', 't', 'y', 'p', 'e']]

def Seg.isReserved : Seg → Bool
  | .key name => reservedSegments.contains name
  | .index _ => false

def Path.hasReserved (path : Path) : Bool :=
  path.any Seg.isReserved

def isReplace : Op α → Bool
  | .r _ => true
  | _ => false

/-- A batch begins with a replacement. -/
def isBase (ops : List (Op α)) : Bool :=
  ops.head?.any isReplace

def assertSafePath : Path → Except Failure Unit
  | [] => .ok ()
  | seg :: rest =>
    if Seg.isReserved seg then .error (.unsafePath seg.toJson)
    else assertSafePath rest

def assertPathArg (path : Path) (nonEmpty : Bool) : Except Failure Unit :=
  if nonEmpty && path.isEmpty then .error (.typeError "path is empty")
  else assertSafePath path

/-- The loop over the permutation with its `seen` marks. -/
def assertBijection (length : Nat) : List Nat → List Nat → Except Failure Unit
  | _, [] => .ok ()
  | seen, index :: rest =>
    if length ≤ index ∨ index ∈ seen then
      .error (.typeError "m permutation is not a bijection")
    else assertBijection length (index :: seen) rest

def assertPermutation (permutation : List Nat) : Except Failure Unit :=
  assertBijection permutation.length [] permutation

/-- The verb's payload and path checks; arity and number shapes hold by type. -/
def assertValidOp : Op α → Except Failure Unit
  | .r _ => .ok ()
  | .s path _ => assertPathArg path true
  | .d path => assertPathArg path true
  | .a path _ => assertPathArg path true
  | .t path _ => assertPathArg path true
  | .p path _ _ _ => assertPathArg path false
  | .m path permutation => do
      assertPathArg path false
      assertPermutation permutation

/-- The verbs that address a property of a container rather than an array. -/
def Op.isLeaf : Op α → Bool
  | .s _ _ | .d _ | .a _ _ | .t _ _ => true
  | _ => false

/-- The verbs that edit an array as a whole. -/
def Op.isArray : Op α → Bool
  | .p _ _ _ _ | .m _ _ => true
  | _ => false

def Op.path : Op α → Path
  | .r _ => []
  | .s path _ | .d path | .a path _ | .t path _ | .p path _ _ _
  | .m path _ => path

/-- The payload's trees under new marks. -/
def Op.mapMark (f : α → β) : Op α → Op β
  | .r value => .r (value.mapMark f)
  | .s path value => .s path (value.mapMark f)
  | .d path => .d path
  | .a path text => .a path text
  | .t path count => .t path count
  | .p path index remove items =>
    .p path index remove (items.map (JsonTree.mapMark f))
  | .m path permutation => .m path permutation

def Op.erase (op : Op α) : Op Unit :=
  op.mapMark fun _ => ()

/-- Every tree an operation carries is strict. -/
def Op.Strict : Op α → Prop
  | .r value => value.Strict
  | .s _ value => value.Strict
  | .p _ _ _ items => ∀ item ∈ items, item.Strict
  | _ => True

/-! ### What a valid operation is -/

/-- The operation passes `assertValidOp`. -/
def Op.Valid (op : Op α) : Prop :=
  assertValidOp op = .ok ()

instance (op : Op α) : Decidable op.Valid :=
  match h : assertValidOp op with
  | .ok () => isTrue h
  | .error failure => isFalse (by rw [Op.Valid, h]; simp)

theorem assertSafePath_eq_ok_iff (path : Path) :
    assertSafePath path = .ok () ↔ Path.hasReserved path = false := by
  induction path with
  | nil => simp [assertSafePath, Path.hasReserved]
  | cons seg rest ih =>
    unfold Path.hasReserved at ih ⊢
    cases hseg : Seg.isReserved seg with
    | true => simp [assertSafePath, hseg]
    | false => simpa [assertSafePath, hseg] using ih

theorem assertPathArg_eq_ok_iff (path : Path) (nonEmpty : Bool) :
    assertPathArg path nonEmpty = .ok () ↔
      (nonEmpty = true → path ≠ []) ∧ Path.hasReserved path = false := by
  rw [assertPathArg, ← assertSafePath_eq_ok_iff]
  cases nonEmpty with
  | false => simp
  | true =>
    cases path with
    | nil => simp
    | cons seg rest => simp

theorem assertBijection_eq_ok_iff (length : Nat) (seen rest : List Nat) :
    assertBijection length seen rest = .ok () ↔
      (∀ index ∈ rest, index < length ∧ index ∉ seen) ∧ rest.Nodup := by
  induction rest generalizing seen with
  | nil => simp [assertBijection]
  | cons index tail ih =>
    by_cases hbad : length ≤ index ∨ index ∈ seen
    · simp only [assertBijection, hbad, ↓reduceIte, reduceCtorEq,
        List.mem_cons, forall_eq_or_imp, false_iff, not_and]
      intro hall
      rcases hbad with hlong | hseen
      · exact absurd hall.1.1 (by omega)
      · exact absurd hseen hall.1.2
    simp only [assertBijection, hbad, ↓reduceIte, ih, List.mem_cons,
      List.nodup_cons, forall_eq_or_imp, not_or]
    rw [not_or, not_le] at hbad
    constructor
    · rintro ⟨hall, hnodup⟩
      refine ⟨⟨hbad, fun other hother => ?_⟩, fun hmem => ?_, hnodup⟩
      · exact ⟨(hall other hother).1, (hall other hother).2.2⟩
      · exact (hall index hmem).2.1 rfl
    rintro ⟨⟨-, hall⟩, hnotin, hnodup⟩
    refine ⟨fun other hother => ?_, hnodup⟩
    refine ⟨(hall other hother).1, fun heq => ?_, (hall other hother).2⟩
    exact hnotin (heq ▸ hother)

/-- The accepted lists are the permutations of the indices below their length. -/
theorem assertPermutation_eq_ok_iff (permutation : List Nat) :
    assertPermutation permutation = .ok () ↔
      (∀ index ∈ permutation, index < permutation.length) ∧
        permutation.Nodup := by
  rw [assertPermutation, assertBijection_eq_ok_iff]
  simp

theorem Op.Valid.safe {op : Op α} (hvalid : op.Valid) : Path.hasReserved op.path = false := by
  cases op with
  | r value => rfl
  | s path value => exact ((assertPathArg_eq_ok_iff path true).mp hvalid).2
  | d path => exact ((assertPathArg_eq_ok_iff path true).mp hvalid).2
  | a path text => exact ((assertPathArg_eq_ok_iff path true).mp hvalid).2
  | t path count => exact ((assertPathArg_eq_ok_iff path true).mp hvalid).2
  | p path index remove items =>
    exact ((assertPathArg_eq_ok_iff path false).mp hvalid).2
  | m path permutation =>
    simp only [Valid, assertValidOp, bind, Except.bind] at hvalid
    cases hpath : assertPathArg path false with
    | error failure => simp [hpath] at hvalid
    | ok accepted => exact ((assertPathArg_eq_ok_iff path false).mp hpath).2

theorem valid_m_iff (path : Path) (permutation : List Nat) :
    (Op.m path permutation : Op α).Valid ↔
      Path.hasReserved path = false ∧
        (∀ index ∈ permutation, index < permutation.length) ∧
        permutation.Nodup := by
  rw [Op.Valid, assertValidOp, ← assertPermutation_eq_ok_iff]
  have hpath := assertPathArg_eq_ok_iff path false
  simp only [Bool.false_eq_true, false_implies, true_and] at hpath
  rw [← hpath]
  cases assertPathArg path false with
  | error failure => simp [bind, Except.bind]
  | ok accepted => simp [bind, Except.bind]

theorem Op.Valid.path_ne_nil {op : Op α} (hvalid : op.Valid)
    (hleaf : op.isLeaf = true) : op.path ≠ [] := by
  cases op with
  | r value => simp [isLeaf] at hleaf
  | p path index remove items => simp [isLeaf] at hleaf
  | m path permutation => simp [isLeaf] at hleaf
  | s path value => exact ((assertPathArg_eq_ok_iff path true).mp hvalid).1 rfl
  | d path => exact ((assertPathArg_eq_ok_iff path true).mp hvalid).1 rfl
  | a path text => exact ((assertPathArg_eq_ok_iff path true).mp hvalid).1 rfl
  | t path count => exact ((assertPathArg_eq_ok_iff path true).mp hvalid).1 rfl

@[simp]
theorem assertValidOp_mapMark (f : α → β) (op : Op α) :
    assertValidOp (op.mapMark f) = assertValidOp op := by
  cases op <;> rfl

end Delta

end Hummin
