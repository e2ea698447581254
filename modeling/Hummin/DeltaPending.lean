/-
The pending queue of a slow consumer.  A leaf operation is merged backwards into
the last pending leaf operation on its path; between the two lie only leaf
operations on other paths, and those commute with it: one on an ancestor would
have made the later operation fail, one on a descendant would have failed
itself.
-/
import Hummin.DeltaApply
import Hummin.DeltaWireRoundTrip
import Hummin.JsonWrite

namespace Hummin.Delta

open List Option JsonTree

/-- Pending operations past which only a replacement stays pending. -/
def maxPendingOps : Nat := 10000

def isPrimitive (value : JsonValue) : Bool :=
  !value.isObj

/-- `LeafOp`: an append, or a set of a primitive. -/
def isLeafOp : Op Unit → Bool
  | .a _ _ => true
  | .s _ value => isPrimitive value
  | _ => false

/-- The queue while it folds: its operations, and the position of the last leaf
operation on each path. -/
structure Folding where
  ops : List (Op Unit)
  leaves : List (JsString × Nat)

def Folding.empty : Folding := ⟨[], []⟩

/-- `merge`: the second operation folded into the first, on the same path. -/
def merge (previous next : Op Unit) : Option (Op Unit) :=
  match next with
  | .s _ _ => some next
  | .a _ more =>
    match previous with
    | .a path text => some (.a path (text ++ more))
    | .s path (.str text) => some (.s path (.str (text ++ more)))
    | _ => none
  | _ => none

/-- The merge into the operation the index points at, if there is one. -/
def merged? (op : Op Unit) (folding : Folding) : Option Folding := do
  let at_ ← PropertyList.get (pathKey op.path) folding.leaves
  let previous ← folding.ops[at_]?
  let merged ← merge previous op
  some { folding with ops := folding.ops.set at_ merged }

/-- `mergeLeaf`: true when merged. -/
def mergeLeaf (op : Op Unit) (folding : Folding) : Folding × Bool :=
  match merged? op folding with
  | some folding => (folding, true)
  | none =>
    ({ folding with
        leaves := PropertyList.put (fun _ _ => false) (pathKey op.path)
          folding.ops.length folding.leaves }, false)

/-- The switch of `#fold`; true when nothing is left to push. -/
def foldRound (folding : Folding) (op : Op Unit) : Folding × Bool :=
  match op with
  | .r _ => (Folding.empty, false)
  | .a _ _ => mergeLeaf op folding
  | .s _ value =>
    if isPrimitive value then mergeLeaf op folding
    else ({ folding with leaves := [] }, false)
  | _ => ({ folding with leaves := [] }, false)

def Folding.push (folding : Folding) (op : Op Unit) : Folding :=
  { folding with ops := folding.ops ++ [op] }

/-- `#fold`; `none` once the queue overflowed. -/
def fold : Folding → List (Op Unit) → Option Folding
  | folding, [] => some folding
  | folding, op :: rest =>
    let round := foldRound folding op
    if round.2 then fold round.1 rest
    else if maxPendingOps < (round.1.push op).ops.length then none
    else fold (round.1.push op) rest

inductive PendingOps where
  | empty
  | batch (ops : List (Op Unit))
  | folding (state : Folding)
  | replace

def PendingOps.ofFold : Option Folding → PendingOps
  | some state => .folding state
  | none => .replace

/-- `push`: queue the operations of one commit. -/
def PendingOps.push (queue : PendingOps) (ops : List (Op Unit)) : PendingOps :=
  if ops.isEmpty then queue
  else if isBase ops then .batch ops
  else match queue with
    | .empty => .batch ops
    | .batch first => .ofFold (do
        let state ← fold Folding.empty first
        fold state ops)
    | .folding state => .ofFold (fold state ops)
    | .replace => .replace

inductive PendingTake where
  | ops (ops : List (Op Unit))
  | replace
deriving DecidableEq

/-- `take`: hand over everything pending; the queue is empty afterwards. -/
def PendingOps.take : PendingOps → PendingTake
  | .empty => .ops []
  | .batch ops => .ops ops
  | .folding state => .ops state.ops
  | .replace => .replace

/-! ### Leaf operations are writes of primitives -/

theorem writeAt_concat_eq_some_iff (root : JsonValue) (front : Path)
    (key : Seg) (value result : JsonValue) :
    root.writeAt (front ++ [key]) value = some result ↔
      ∃ parent edited, root.getAt front = some parent ∧
        parent.defineProperty key value = some edited ∧
        result = root.replaceAt front edited := by
  induction front generalizing root result with
  | nil =>
    constructor
    · intro hwrite
      exact ⟨root, result, rfl, hwrite, rfl⟩
    rintro ⟨parent, edited, hparent, hdefine, rfl⟩
    cases hparent
    exact hdefine
  | cons seg rest ih =>
    rw [cons_append]
    constructor
    · intro hwrite
      obtain ⟨below, written, hchild, hwritten, rfl⟩ :=
        writeAt_cons_eq_some (by simp) hwrite
      obtain ⟨parent, edited, hparent, hdefine, rfl⟩ :=
        (ih below written).mp hwritten
      refine ⟨parent, edited, ?_, hdefine, ?_⟩
      · rw [getAt_cons, hchild]
        exact hparent
      · rw [replaceAt_cons hchild]
    rintro ⟨parent, edited, hparent, hdefine, rfl⟩
    rw [getAt_cons, bind_eq_some_iff] at hparent
    obtain ⟨below, hchild, hparent⟩ := hparent
    rw [writeAt_cons hchild (by simp),
      (ih below _).mpr ⟨parent, edited, hparent, hdefine, rfl⟩,
      replaceAt_cons hchild]
    rfl

theorem writeProperty_eq_ok_iff (parent : JsonValue) (key : Seg) (value edited : JsonValue) :
    (assertParentKey parent key = .ok () ∧ writeProperty parent key value = .ok edited) ↔
        parent.defineProperty key value = some edited := by
  rw [writeProperty]
  constructor
  · rintro ⟨-, hwrite⟩
    split at hwrite
    next node hdefine =>
      rw [hdefine, Except.ok.inj hwrite]
    · simp at hwrite
  intro hdefine
  rw [hdefine]
  refine ⟨?_, rfl⟩
  cases parent with
  | null | bool | num | str | obj => rfl
  | arr mark items =>
    cases key with
    | key name => simp [JsonTree.defineProperty] at hdefine
    | index at_ =>
      rw [assertParentKey, if_neg]
      intro hlong
      rw [JsonTree.defineProperty, if_neg (by omega),
        if_neg (by omega)] at hdefine
      simp at hdefine

/-- The primitive a leaf operation writes at its path. -/
def Op.writes (root : JsonValue) : Op Unit → Option JsonValue
  | .s _ value => if isPrimitive value then some value else none
  | .a path text =>
    match root.getAt path with
    | some (.str current) => some (.str (current ++ text))
    | _ => none
  | _ => none

variable {root : JsonValue}

variable {op : Op Unit}

theorem Op.not_isObj_of_writes {value : JsonValue}
    (hwrites : op.writes root = some value) : value.isObj = false := by
  cases op with
  | r | d | t | p | m => simp [Op.writes] at hwrites
  | s path payload =>
    simp only [Op.writes] at hwrites
    split at hwrites
    next hprimitive =>
      cases hwrites
      simpa [isPrimitive] using hprimitive
    · simp at hwrites
  | a path text =>
    simp only [Op.writes] at hwrites
    split at hwrites
    · cases hwrites
      rfl
    · simp at hwrites

/-- A leaf operation applies exactly when its write does. -/
theorem applyOp_leafOp_eq_ok_iff (hleaf : isLeafOp op = true) (root result : JsonValue) :
    applyOp root op = .ok result ↔
      op.Valid ∧ ∃ value, op.writes root = some value ∧
        root.writeAt op.path value = some result := by
  have hleaf' : op.isLeaf = true := by
    cases op with
    | s | a => rfl
    | r | d | t | p | m => simp [isLeafOp] at hleaf
  rw [applyOp_leaf_eq_ok_iff root hleaf']
  refine and_congr_right fun hvalid => ?_
  obtain ⟨front, key, hpath⟩ : ∃ front key, op.path = front ++ [key] :=
    ⟨_, _, (dropLast_append_getLast (hvalid.path_ne_nil hleaf')).symm⟩
  have hedit : ∀ parent edited, root.getAt front = some parent →
      (editParent op key parent = .ok edited ↔ ∃ value, op.writes root = some value ∧
          parent.defineProperty key value = some edited) := by
    intro parent edited hparent
    rw [editParent.eq_def, except_bind_eq_ok_iff]
    cases op with
    | r | d | t | p | m => simp [isLeafOp] at hleaf
    | s path value =>
      have hwrites : (Op.s path value).writes root = some value := by
        simp only [isLeafOp] at hleaf
        simp [Op.writes, hleaf]
      rw [hwrites]
      constructor
      · rintro ⟨accepted, hkey, hwrite⟩
        exact ⟨value, rfl, (writeProperty_eq_ok_iff _ _ _ _).mp ⟨hkey, hwrite⟩⟩
      rintro ⟨other, hother, hdefine⟩
      cases hother
      obtain ⟨hkey, hwrite⟩ :=
        (writeProperty_eq_ok_iff _ _ _ _).mpr hdefine
      exact ⟨(), hkey, hwrite⟩
    | a path text =>
      simp only [Op.path] at hpath
      have hget : root.getAt path = parent.child key := by
        rw [hpath, getAt_append_of_eq hparent]
        simp
      simp only [Op.writes, hget]
      constructor
      · rintro ⟨accepted, hkey, hwrite⟩
        split at hwrite
        next current hcurrent =>
          exact ⟨.str (current ++ text), by rw [hcurrent],
            (writeProperty_eq_ok_iff _ _ _ _).mp ⟨hkey, hwrite⟩⟩
        · simp at hwrite
      rintro ⟨value, hvalue, hdefine⟩
      split at hvalue
      next current hcurrent =>
        cases hvalue
        obtain ⟨hkey, hwrite⟩ :=
          (writeProperty_eq_ok_iff _ _ _ _).mpr hdefine
        refine ⟨(), hkey, ?_⟩
        rw [hcurrent]
        exact hwrite
      · simp at hvalue
  constructor
  · rintro ⟨front', key', parent, edited, hpath', hget, hobj, hok, rfl⟩
    rw [hpath] at hpath'
    obtain ⟨rfl, hkey⟩ := append_inj' hpath' rfl
    obtain rfl := singleton_inj.mp hkey
    obtain ⟨value, hwrites, hdefine⟩ := (hedit parent edited hget).mp hok
    refine ⟨value, hwrites, ?_⟩
    rw [hpath, writeAt_concat_eq_some_iff]
    exact ⟨parent, edited, hget, hdefine, rfl⟩
  rintro ⟨value, hwrites, hwrite⟩
  rw [hpath, writeAt_concat_eq_some_iff] at hwrite
  obtain ⟨parent, edited, hget, hdefine, rfl⟩ := hwrite
  have hobj := isObj_of_defineProperty hdefine
  exact ⟨front, key, parent, edited, hpath, hget, hobj,
    (hedit parent edited hget).mpr ⟨value, hwrites, hdefine⟩, rfl⟩

/-! ### Runs of emitted operations -/

/-- The operations apply one after another and lead from `root` to `result`; as
the producers emit them, a number never names a property of an object. -/
def Emits : JsonValue → List (Op Unit) → JsonValue → Prop
  | root, [], result => root = result
  | root, op :: rest, result =>
    root.spells op.path = true ∧
      ∃ next, applyOp root op = .ok next ∧ Emits next rest result

variable {replica middle result : JsonValue}

theorem emits_append {front back : List (Op Unit)} :
    Emits root (front ++ back) result ↔
      ∃ middle, Emits root front middle ∧ Emits middle back result := by
  induction front generalizing root with
  | nil => simp [Emits]
  | cons op rest ih =>
    simp only [cons_append, Emits, ih]
    constructor
    · rintro ⟨hspells, next, hok, middle, hrest, hback⟩
      exact ⟨middle, ⟨hspells, next, hok, hrest⟩, hback⟩
    rintro ⟨middle, ⟨hspells, next, hok, hrest⟩, hback⟩
    exact ⟨hspells, next, hok, middle, hrest, hback⟩

variable {folding : Folding} {current : JsonValue} {queue : PendingOps} {ops : List (Op Unit)}

theorem applyOps_of_emits (hemits : Emits root ops result) : applyOps root ops = .ok result := by
  induction ops generalizing root with
  | nil =>
    obtain rfl : root = result := hemits
    rfl
  | cons op rest ih =>
    obtain ⟨-, next, hok, hrest⟩ := hemits
    rw [applyOps, foldlM_except_cons_eq_ok_iff]
    exact ⟨next, hok, ih hrest⟩

variable {container : JsonValue}

/-- Leaf operations make no container. -/
theorem isObj_of_emits (hleaves : ∀ op ∈ ops, isLeafOp op = true) (hemits : Emits root ops result)
    {place : Path} (hget : result.getAt place = some container) (hobj : container.isObj = true) :
    ∃ old, root.getAt place = some old ∧ old.isObj = true := by
  induction ops generalizing root with
  | nil =>
    obtain rfl : root = result := hemits
    exact ⟨container, hget, hobj⟩
  | cons op rest ih =>
    obtain ⟨-, next, hok, hrest⟩ := hemits
    obtain ⟨-, value, hwrites, hwrite⟩ :=
      (applyOp_leafOp_eq_ok_iff (hleaves op mem_cons_self) _ _).mp hok
    obtain ⟨old, hold, hobj'⟩ := ih (fun other hother =>
      hleaves other (mem_cons_of_mem _ hother)) hrest
    exact isObj_of_writeAt (Op.not_isObj_of_writes hwrites) hwrite
      hold hobj'

/-- A primitive cannot stand on the way to a container. -/
theorem not_prefix_of_container {value : JsonValue}
    {path front : Path} (hvalue : root.getAt path = some value) (hprimitive : value.isObj = false)
    (hcontainer : root.getAt front = some container)
    (hobj : container.isObj = true) : ¬ path <+: front := by
  rintro ⟨rest, rfl⟩
  rw [getAt_append_of_eq hvalue] at hcontainer
  cases rest with
  | nil =>
    cases hcontainer
    rw [hprimitive] at hobj
    simp at hobj
  | cons seg tail =>
    rw [getAt_cons, child_of_not_isObj hprimitive]
      at hcontainer
    simp at hcontainer

/-- Leaf operations elsewhere keep the primitive at a path and commute with
overwriting it, when the container that holds it is still there at the end. -/
theorem emits_frame {old : JsonValue} {ops : List (Op Unit)}
    {front : Path} {key : Seg} (hemits : Emits root ops result) (hleaves : ∀ op ∈ ops,
      isLeafOp op = true ∧ op.path ≠ front ++ [key]) (hold : root.getAt (front ++ [key]) = some old)
    (hprimitive : old.isObj = false) (hspells : root.spells (front ++ [key]) = true)
    (hcontainer : result.getAt front = some container) (hobj : container.isObj = true) :
    result.getAt (front ++ [key]) = some old ∧
      ∀ value : JsonValue, value.isObj = false →
        Emits (root.replaceAt (front ++ [key]) value) ops
          (result.replaceAt (front ++ [key]) value) := by
  induction ops generalizing root with
  | nil =>
    obtain rfl : root = result := hemits
    exact ⟨hold, fun value _ => rfl⟩
  | cons op rest ih =>
    obtain ⟨hop, next, hok, hrest⟩ := hemits
    obtain ⟨hleaf, hne⟩ := hleaves op mem_cons_self
    have hleaves' := fun other hother =>
      hleaves other (mem_cons_of_mem op hother)
    obtain ⟨hvalid, written, hwrites, hwrite⟩ :=
      (applyOp_leafOp_eq_ok_iff hleaf _ _).mp hok
    have hwritten := Op.not_isObj_of_writes hwrites
    -- the operation is not on an ancestor: the container outlives it
    obtain ⟨below, hbelow, hbelowObj⟩ := isObj_of_emits
      (fun other hother => (hleaves' other hother).1) hrest hcontainer hobj
    have hfront := not_prefix_of_container (getAt_writeAt hwrite)
      hwritten hbelow hbelowObj
    have hnot : ¬ op.path <+: front ++ [key] := by
      intro hprefix
      rcases prefix_concat_iff.mp hprefix with heq | hlt
      · exact hne heq
      · exact hfront hlt
    obtain ⟨hkept, hcomm⟩ :=
      writeAt_frame hold hprimitive hwrite hspells hop hnot
    obtain ⟨hresult, hrun⟩ := ih hrest hleaves' hkept
      (spells_writeAt hwritten hwrite hspells)
    refine ⟨hresult, fun value hvalue => ?_⟩
    have hover := writeAt_of_getAt hold (by simp) value
    refine ⟨spells_writeAt hvalue hover hop, _, ?_, hrun value hvalue⟩
    refine (applyOp_leafOp_eq_ok_iff hleaf _ _).mpr
      ⟨hvalid, written, ?_, hcomm value⟩
    cases op with
    | r | d | t | p | m => simp [isLeafOp] at hleaf
    | s path payload => exact hwrites
    | a path text =>
      simp only [Op.writes, Op.path] at hwrites hop hnot hne ⊢
      split at hwrites
      next current hcurrent =>
        -- overwriting the string by itself moves nothing
        have hself : root.writeAt path (.str current) = some root := by
          rw [writeAt_of_getAt hcurrent (hvalid.path_ne_nil rfl), replaceAt_self hcurrent]
        obtain ⟨-, hself'⟩ :=
          writeAt_frame hold hprimitive hself hspells hop hnot
        rw [getAt_writeAt (hself' value)]
        exact hwrites
      · simp at hwrites

/-- A later leaf operation on the same path merges into the earlier one, past
leaf operations on other paths. -/
theorem emits_merge {front rest : List (Op Unit)} {previous next merged : Op Unit}
    (hemits : Emits root (front ++ previous :: rest) middle)
    (hprevious : isLeafOp previous = true) (hnext : isLeafOp next = true)
    (hpath : next.path = previous.path)
    (hrest : ∀ op ∈ rest, isLeafOp op = true ∧ op.path ≠ previous.path)
    (hok : applyOp middle next = .ok result) (hmerge : merge previous next = some merged) :
    Emits root (front ++ merged :: rest) result := by
  rw [emits_append] at hemits ⊢
  obtain ⟨start, hfront, hstart, first, hfirst, hrun⟩ := hemits
  obtain ⟨hvalid, old, hwritesOld, hwriteOld⟩ :=
    (applyOp_leafOp_eq_ok_iff hprevious _ _).mp hfirst
  obtain ⟨hvalid', new, hwritesNew, hwriteNew⟩ :=
    (applyOp_leafOp_eq_ok_iff hnext _ _).mp hok
  have hold := Op.not_isObj_of_writes hwritesOld
  have hnew := Op.not_isObj_of_writes hwritesNew
  obtain ⟨place, key, hplace⟩ : ∃ place key, previous.path = place ++ [key] := by
    have hne : previous.path ≠ [] := by
      intro hnil
      rw [hnil] at hwriteOld
      simp [JsonTree.writeAt] at hwriteOld
    exact ⟨_, _, (dropLast_append_getLast hne).symm⟩
  rw [hpath, hplace] at hwriteNew
  rw [hplace] at hwriteOld hstart hrest
  obtain ⟨container, edited, hcontainer, hdefine, -⟩ :=
    (writeAt_concat_eq_some_iff middle place key new result).mp hwriteNew
  have hobj := isObj_of_defineProperty hdefine
  obtain ⟨hkept, hrun'⟩ := emits_frame hrun hrest
    (getAt_writeAt hwriteOld) hold
    (spells_writeAt hold hwriteOld hstart) hcontainer hobj
  have hresult : result = middle.replaceAt (place ++ [key]) new := by
    rw [writeAt_of_getAt hkept (by simp)] at hwriteNew
    exact (some.inj hwriteNew).symm
  -- the merged operation is on the path, valid, and writes the new value
  have hmerged : isLeafOp merged = true ∧ merged.path = place ++ [key] ∧
      merged.Valid ∧ merged.writes start = some new := by
    cases next with
    | r | d | t | p | m => simp [isLeafOp] at hnext
    | s path value =>
      cases hmerge
      exact ⟨hnext, hpath.trans hplace, hvalid', hwritesNew⟩
    | a path more =>
      have hat : path = place ++ [key] := hpath.trans hplace
      simp only [Op.writes, hat, hkept] at hwritesNew
      cases previous with
      | r | d | t | p | m => simp [isLeafOp] at hprevious
      | a path' text =>
        cases hmerge
        refine ⟨rfl, hplace, hvalid, ?_⟩
        simp only [Op.writes] at hwritesOld ⊢
        split at hwritesOld
        · cases hwritesOld
          rw [← append_assoc]
          exact hwritesNew
        · simp at hwritesOld
      | s path' value =>
        cases value with
        | null | bool | num | arr | obj => simp [merge] at hmerge
        | str text =>
          cases hmerge
          refine ⟨rfl, hplace, hvalid, ?_⟩
          obtain rfl : JsonTree.str text = old := by
            simpa [Op.writes, isPrimitive, JsonTree.isObj]
              using hwritesOld
          simpa [Op.writes, isPrimitive, JsonTree.isObj] using hwritesNew
  obtain ⟨hleaf, hmergedPath, hmergedValid, hmergedWrites⟩ := hmerged
  refine ⟨start, hfront, ?_, first.replaceAt (place ++ [key]) new, ?_, ?_⟩
  · rw [hmergedPath]
    exact hstart
  · refine (applyOp_leafOp_eq_ok_iff hleaf _ _).mpr
      ⟨hmergedValid, new, hmergedWrites, ?_⟩
    rw [hmergedPath]
    exact writeAt_writeAt hwriteOld new
  rw [hresult]
  exact hrun' new hnew

/-! ### The fold -/

/-- The fold without the overflow check. -/
def foldOp (folding : Folding) (op : Op Unit) : Folding :=
  let round := foldRound folding op
  if round.2 then round.1 else round.1.push op

/-- The queue leads from `root` to `result`, and behind every indexed leaf
operation come only leaf operations on other paths. -/
structure FoldInvariant (root : JsonValue) (folding : Folding)
    (result : JsonValue) : Prop where
  emits : Emits root folding.ops result
  leaf : ∀ key at_, PropertyList.get key folding.leaves = some at_ →
    ∃ previous, folding.ops[at_]? = some previous ∧
      isLeafOp previous = true ∧ pathKey previous.path = key ∧
      ∀ j op, at_ < j → folding.ops[j]? = some op →
        isLeafOp op = true ∧ op.path ≠ previous.path

theorem foldInvariant_empty (root : JsonValue) :
    FoldInvariant root Folding.empty root where
  emits := rfl
  leaf := by simp [Folding.empty]

/-- Pushing after the index was cleared. -/
theorem FoldInvariant.pushCleared (hinv : FoldInvariant root folding middle)
    (hspells : middle.spells op.path = true)
    (hok : applyOp middle op = .ok result) :
    FoldInvariant root (({ folding with leaves := [] } : Folding).push op)
      result where
  emits := by
    rw [Folding.push, emits_append]
    exact ⟨middle, hinv.emits, hspells, result, hok, rfl⟩
  leaf := by simp [Folding.push]

/-- Pushing a leaf operation that is indexed at its new position. -/
theorem FoldInvariant.pushLeaf (hinv : FoldInvariant root folding middle)
    (hleaf : isLeafOp op = true)
    (hspells : middle.spells op.path = true)
    (hok : applyOp middle op = .ok result) :
    FoldInvariant root (({ folding with
      leaves := PropertyList.put (fun _ _ => false) (pathKey op.path)
        folding.ops.length folding.leaves } : Folding).push op) result where
  emits := by
    rw [Folding.push, emits_append]
    exact ⟨middle, hinv.emits, hspells, result, hok, rfl⟩
  leaf := by
    intro key at_ hget
    simp only [Folding.push] at hget ⊢
    rw [PropertyList.get_put] at hget
    split at hget
    next hkey =>
      cases hget
      refine ⟨op, by simp, hleaf, hkey.symm, ?_⟩
      intro j other hj hother
      have hlt := (List.getElem?_eq_some_iff.mp hother).1
      rw [length_append, length_singleton] at hlt
      omega
    rename_i hkey
    obtain ⟨previous, hprevious, hleaf', hkey', hlater⟩ :=
      hinv.leaf key at_ hget
    have hlt := (List.getElem?_eq_some_iff.mp hprevious).1
    refine ⟨previous, ?_, hleaf', hkey', ?_⟩
    · rw [getElem?_append_left hlt, hprevious]
    intro j other hj hother
    rw [getElem?_append] at hother
    split at hother
    · exact hlater j other hj hother
    obtain rfl := mem_singleton.mp (mem_of_getElem? hother)
    refine ⟨hleaf, fun hpath => hkey ?_⟩
    rw [hpath, hkey']

theorem isLeafOp_of_merge {previous next merged : Op Unit}
    (hnext : isLeafOp next = true) (hpath : next.path = previous.path)
    (hmerge : merge previous next = some merged) :
    isLeafOp merged = true ∧ merged.path = previous.path := by
  cases next with
  | r | d | t | p | m => simp [isLeafOp] at hnext
  | s path value =>
    cases hmerge
    exact ⟨hnext, hpath⟩
  | a path more =>
    cases previous with
    | r | d | t | p | m => simp [merge] at hmerge
    | a path' text =>
      cases hmerge
      exact ⟨rfl, rfl⟩
    | s path' value =>
      cases value with
      | null | bool | num | arr | obj => simp [merge] at hmerge
      | str text =>
        cases hmerge
        exact ⟨rfl, rfl⟩

/-- Merging a leaf operation into the indexed one on its path. -/
theorem FoldInvariant.merged {root middle result : JsonValue}
    {folding folding' : Folding} (hinv : FoldInvariant root folding middle)
    (hleaf : isLeafOp op = true) (hok : applyOp middle op = .ok result)
    (hmerged : merged? op folding = some folding') : FoldInvariant root folding' result := by
  simp only [merged?, bind_eq_bind, bind_eq_some_iff]
    at hmerged
  obtain ⟨at_, hat, previous, hprevious, merged, hmerge, hset⟩ := hmerged
  cases hset
  obtain ⟨found, hfound, hleaf', hkey, hlater⟩ := hinv.leaf _ at_ hat
  obtain rfl : previous = found := some.inj (hprevious.symm.trans hfound)
  have hpath : op.path = previous.path := (pathKey_injective hkey).symm
  obtain ⟨hmergedLeaf, hmergedPath⟩ := isLeafOp_of_merge hleaf hpath hmerge
  obtain ⟨hlt, hget⟩ := List.getElem?_eq_some_iff.mp hprevious
  constructor
  · -- the queue around the merged position
    have hsplit : folding.ops = folding.ops.take at_ ++
        previous :: folding.ops.drop (at_ + 1) := by
      rw [← hget, cons_getElem_drop_succ, take_append_drop]
    have hemits := hinv.emits
    rw [hsplit] at hemits
    rw [set_eq_take_append_cons_drop, if_pos hlt]
    refine emits_merge hemits hleaf' hleaf hpath ?_ hok hmerge
    intro other hother
    obtain ⟨j, hj⟩ := mem_iff_getElem?.mp hother
    rw [getElem?_drop] at hj
    exact hlater (at_ + 1 + j) other (by omega) hj
  intro key other hother
  obtain ⟨found, hfound, hfoundLeaf, hfoundKey, hfoundLater⟩ :=
    hinv.leaf key other hother
  -- positions other than the merged one hold what they held
  by_cases hsame : at_ = other
  · subst hsame
    obtain rfl : previous = found :=
      some.inj (hprevious.symm.trans hfound)
    refine ⟨merged, by simp [hlt], hmergedLeaf, ?_, ?_⟩
    · rw [hmergedPath, hfoundKey]
    intro j later hj hlater'
    rw [getElem?_set_ne (by omega)] at hlater'
    rw [hmergedPath]
    exact hfoundLater j later hj hlater'
  refine ⟨found, ?_, hfoundLeaf, hfoundKey, ?_⟩
  · rw [getElem?_set_ne hsame, hfound]
  intro j later hj hlater'
  by_cases hat' : at_ = j
  · subst hat'
    rw [getElem?_set_self hlt] at hlater'
    cases hlater'
    rw [hmergedPath]
    exact ⟨hmergedLeaf, (hfoundLater at_ previous hj hprevious).2⟩
  rw [getElem?_set_ne hat'] at hlater'
  exact hfoundLater j later hj hlater'

section

variable (hinv : FoldInvariant root folding middle)
include hinv

theorem FoldInvariant.mergeLeaf
    (hleaf : isLeafOp op = true)
    (hspells : middle.spells op.path = true)
    (hok : applyOp middle op = .ok result) :
    FoldInvariant root (if (mergeLeaf op folding).2 then
      (mergeLeaf op folding).1 else (mergeLeaf op folding).1.push op)
      result := by
  rw [Delta.mergeLeaf]
  split
  next folding' hmerged =>
    exact hinv.merged hleaf hok hmerged
  · exact hinv.pushLeaf hleaf hspells hok

/-- One operation folded in: the queue leads where applying it leads. -/
theorem FoldInvariant.foldOp (hspells : middle.spells op.path = true)
    (hok : applyOp middle op = .ok result) : FoldInvariant root (foldOp folding op) result := by
  rw [Delta.foldOp]
  cases op with
  | d | t | p | m => exact hinv.pushCleared hspells hok
  | a path text => exact hinv.mergeLeaf rfl hspells hok
  | r value =>
    refine ⟨⟨rfl, value, rfl, ?_⟩, by simp [foldRound, Folding.push,
      Folding.empty]⟩
    exact Except.ok.inj hok
  | s path value =>
    by_cases hprimitive : isPrimitive value = true
    · simp only [foldRound, if_pos hprimitive]
      exact hinv.mergeLeaf hprimitive hspells hok
    simp only [foldRound, if_neg hprimitive]
    exact hinv.pushCleared hspells hok

theorem FoldInvariant.foldl {ops : List (Op Unit)} (hemits : Emits middle ops result) :
    FoldInvariant root (ops.foldl Delta.foldOp folding) result := by
  induction ops generalizing folding middle with
  | nil =>
    obtain rfl : middle = result := hemits
    exact hinv
  | cons op rest ih =>
    obtain ⟨hspells, next, hok, hrest⟩ := hemits
    exact ih (hinv.foldOp hspells hok) hrest

end

/-- The fold with its limit: the unlimited fold, unless it went past the limit
on the way. -/
theorem fold_cases (folding : Folding) (ops : List (Op Unit)) :
    fold folding ops = some (ops.foldl foldOp folding) ∨
      fold folding ops = none ∧ ∃ front, front <+: ops ∧
        maxPendingOps < (front.foldl foldOp folding).ops.length := by
  induction ops generalizing folding with
  | nil => exact Or.inl rfl
  | cons op rest ih =>
    rw [fold]
    have hround : foldOp folding op = if (foldRound folding op).2 then
      (foldRound folding op).1 else (foldRound folding op).1.push op := rfl
    have hlift : ∀ state, foldOp folding op = state →
        (fold state rest = some ((op :: rest).foldl foldOp folding) ∨
          fold state rest = none ∧ ∃ front, front <+: op :: rest ∧
            maxPendingOps < (front.foldl foldOp folding).ops.length) := by
      rintro state rfl
      rcases ih (foldOp folding op) with hdone | ⟨hnone, front, hfront, hlong⟩
      · exact Or.inl hdone
      · exact Or.inr ⟨hnone, op :: front, (prefix_cons_inj op).mpr hfront, hlong⟩
    split
    next hmerged =>
      rw [if_pos hmerged] at hround
      exact hlift _ hround
    rename_i hpush
    rw [if_neg hpush] at hround
    split
    next hlong =>
      refine Or.inr ⟨rfl, [op], by simp, ?_⟩
      rw [foldl_cons, foldl_nil, hround]
      exact hlong
    · exact hlift _ hround

/-! ### The queue -/

/-- What is pending leads from `replica` to `current`. -/
def PendingOps.Leads (replica current : JsonValue) : PendingOps → Prop
  | .empty => replica = current
  | .batch ops => Emits replica ops current
  | .folding state => FoldInvariant replica state current
  | .replace => True

theorem emits_of_isBase {other result : JsonValue} {ops : List (Op Unit)}
    (hbase : isBase ops = true) (hemits : Emits root ops result) : Emits other ops result := by
  cases ops with
  | nil => simp [isBase] at hbase
  | cons op rest =>
    cases op with
    | r value => exact ⟨rfl, hemits.2⟩
    | s | d | a | t | p | m => simp [isBase, isReplace] at hbase

theorem leads_ofFold {state : Folding}
    (hinv : FoldInvariant replica state middle) {ops : List (Op Unit)}
    (hemits : Emits middle ops current) :
    (PendingOps.ofFold (fold state ops)).Leads replica current := by
  rcases fold_cases state ops with hdone | ⟨hnone, -⟩
  · rw [hdone]
    exact hinv.foldl hemits
  rw [hnone]
  trivial

theorem PendingOps.Leads.push (hleads : queue.Leads replica middle)
    {ops : List (Op Unit)} (hemits : Emits middle ops current) :
    (queue.push ops).Leads replica current := by
  rw [PendingOps.push.eq_def]
  split
  next hempty =>
    obtain rfl := isEmpty_iff.mp hempty
    obtain rfl : middle = current := hemits
    exact hleads
  split
  next hbase =>
    exact emits_of_isBase hbase hemits
  cases queue with
  | empty =>
    obtain rfl : replica = middle := hleads
    exact hemits
  | folding state => exact leads_ofFold hleads hemits
  | replace => trivial
  | batch first =>
    have hfirst : Emits replica first middle := hleads
    have hinv := (foldInvariant_empty replica).foldl hfirst
    rcases fold_cases Folding.empty first with hdone | ⟨hnone, -⟩
    · simp only [hdone]
      exact leads_ofFold hinv hemits
    simp only [hnone]
    trivial

/-- What was pushed since the last `take` or the last batch that starts with a
replacement, that batch included. -/
def pendingSince (since : List (Op Unit)) (ops : List (Op Unit)) :
    List (Op Unit) :=
  if isBase ops then ops else since ++ ops

/-- The operations still pending after folding exceeded the limit at some point
while `since` was pushed. -/
def Exceeded (since : List (Op Unit)) : Prop :=
  ∃ front, front <+: since ∧
    maxPendingOps < (front.foldl foldOp Folding.empty).ops.length

/-- The queue holds what was pushed `since`. -/
def PendingOps.Holds (since : List (Op Unit)) : PendingOps → Prop
  | .empty => since = []
  | .batch ops => ops = since
  | .folding state => state = since.foldl foldOp Folding.empty
  | .replace => Exceeded since

theorem holds_ofFold (since ops : List (Op Unit)) :
    (PendingOps.ofFold (fold (since.foldl foldOp Folding.empty) ops)).Holds (since ++ ops) := by
  rcases fold_cases (since.foldl foldOp Folding.empty) ops with
    hdone | ⟨hnone, front, hfront, hlong⟩
  · rw [hdone, ← foldl_append]
    rfl
  rw [hnone]
  refine ⟨since ++ front, (prefix_append_right_inj since).mpr hfront, ?_⟩
  rw [foldl_append]
  exact hlong

variable {since : List (Op Unit)}

theorem PendingOps.Holds.push {queue : PendingOps}
    (hholds : queue.Holds since) (ops : List (Op Unit)) :
    (queue.push ops).Holds (pendingSince since ops) := by
  rw [PendingOps.push.eq_def, pendingSince]
  by_cases hempty : ops.isEmpty = true
  · obtain rfl := isEmpty_iff.mp hempty
    simpa [isBase] using hholds
  rw [if_neg hempty]
  split
  · rfl
  cases queue with
  | empty =>
    obtain rfl : since = [] := hholds
    rfl
  | folding state =>
    obtain rfl : state = since.foldl foldOp Folding.empty := hholds
    exact holds_ofFold since ops
  | replace =>
    obtain ⟨front, hfront, hlong⟩ := hholds
    exact ⟨front, hfront.trans (prefix_append since ops), hlong⟩
  | batch first =>
    obtain rfl : first = since := hholds
    rcases fold_cases Folding.empty first with
      hdone | ⟨hnone, front, hfront, hlong⟩
    · simp only [hdone]
      exact holds_ofFold first ops
    simp only [hnone]
    exact ⟨front, hfront.trans (prefix_append first ops), hlong⟩

/-! ### A consumer of the queue -/

inductive PendingEvent where
  | push (ops : List (Op Unit))
  | take

/-- The queue, the consumer's replica and the owner's current value. -/
structure Consumer where
  queue : PendingOps
  replica : JsonValue
  current : JsonValue

/-- The owner commits and pushes; the consumer takes and applies, and gets the
current value after an overflow. -/
def Consumer.step (state : Consumer) : PendingEvent → Except Failure Consumer
  | .push ops => do
      let current ← applyOps state.current ops
      .ok ⟨state.queue.push ops, state.replica, current⟩
  | .take =>
    match state.queue.take with
    | .ops ops => do
        let replica ← applyOps state.replica ops
        .ok ⟨.empty, replica, state.current⟩
    | .replace => .ok ⟨.empty, state.current, state.current⟩

def Consumer.run (state : Consumer) (events : List PendingEvent) :
    Except Failure Consumer :=
  events.foldlM Consumer.step state

/-- All operations pushed, in order. -/
def pushed : List PendingEvent → List (Op Unit)
  | [] => []
  | .push ops :: rest => ops ++ pushed rest
  | .take :: rest => pushed rest

/-- The queue after the events. -/
def queueAfter : PendingOps → List PendingEvent → PendingOps
  | queue, [] => queue
  | queue, .push ops :: rest => queueAfter (queue.push ops) rest
  | _, .take :: rest => queueAfter .empty rest

/-- What was pushed since the last `take` or leading replacement. -/
def sinceAfter : List (Op Unit) → List PendingEvent → List (Op Unit)
  | since, [] => since
  | since, .push ops :: rest => sinceAfter (pendingSince since ops) rest
  | _, .take :: rest => sinceAfter [] rest

theorem applyOps_take {replica current : JsonValue}
    (hleads : queue.Leads replica current) {ops : List (Op Unit)}
    (htake : queue.take = .ops ops) : applyOps replica ops = .ok current := by
  cases queue with
  | replace => simp [PendingOps.take] at htake
  | empty =>
    cases htake
    obtain rfl : replica = current := hleads
    rfl
  | batch batch =>
    cases htake
    exact applyOps_of_emits hleads
  | folding state =>
    cases htake
    exact applyOps_of_emits hleads.emits

/-- A `take` brings the replica to the current value. -/
theorem Consumer.step_take {state : Consumer}
    (hleads : state.queue.Leads state.replica state.current) :
    state.step .take = .ok ⟨.empty, state.current, state.current⟩ := by
  rw [Consumer.step]
  split
  next ops htake =>
    rw [applyOps_take hleads htake]
    rfl
  · rfl

/-- Along every run the queue leads from the replica to the current value. -/
theorem Consumer.run_leads (state : Consumer)
    (hleads : state.queue.Leads state.replica state.current)
    {events : List PendingEvent} {result : JsonValue}
    (hemits : Emits state.current (pushed events) result) :
    ∃ replica, state.run events =
        .ok ⟨queueAfter state.queue events, replica, result⟩ ∧
      (queueAfter state.queue events).Leads replica result ∧
      ((∀ event ∈ events, event ≠ .take) → replica = state.replica) := by
  induction events generalizing state with
  | nil =>
    obtain rfl : state.current = result := hemits
    exact ⟨state.replica, rfl, hleads, fun _ => rfl⟩
  | cons event rest ih =>
    cases event with
    | push ops =>
      obtain ⟨middle, hops, hrest⟩ := emits_append.mp hemits
      have hstep : state.step (.push ops) =
          .ok ⟨state.queue.push ops, state.replica, middle⟩ := by
        rw [Consumer.step, applyOps_of_emits hops]
        rfl
      obtain ⟨replica, hrun, hend, hsame⟩ :=
        ih ⟨state.queue.push ops, state.replica, middle⟩
          (hleads.push hops) hrest
      refine ⟨replica, ?_, hend, fun hpush => hsame fun other hother =>
        hpush other (mem_cons_of_mem _ hother)⟩
      rw [Consumer.run, foldlM_except_cons_eq_ok_iff]
      exact ⟨_, hstep, hrun⟩
    | take =>
      obtain ⟨replica, hrun, hend, -⟩ :=
        ih ⟨.empty, state.current, state.current⟩ rfl hemits
      refine ⟨replica, ?_, hend, fun hpush => absurd rfl
        (hpush .take mem_cons_self)⟩
      rw [Consumer.run, foldlM_except_cons_eq_ok_iff]
      exact ⟨_, Consumer.step_take hleads, hrun⟩

theorem queueAfter_holds (queue : PendingOps)
    (hholds : queue.Holds since) (events : List PendingEvent) :
    (queueAfter queue events).Holds (sinceAfter since events) := by
  induction events generalizing queue since with
  | nil => exact hholds
  | cons event rest ih =>
    cases event with
    | push ops => exact ih (queue.push ops) (hholds.push ops)
    | take => exact ih .empty rfl

/-- The folded queue replays.  Pushing emitted batches and taking gives a
replacement or operations that lead from the value to the end of the batches;
with any further takes in between the consumer still ends there; and a
replacement is handed over only after the folded operations exceeded the limit.
-/
theorem pendingOps_replay (value result : JsonValue) (events : List PendingEvent)
    (hemits : Emits value (pushed events) result) :
    ((∀ event ∈ events, event ≠ .take) → ∀ ops, (queueAfter .empty events).take = .ops ops →
        applyOps value ops = .ok result) ∧
    Consumer.run ⟨.empty, value, value⟩ (events ++ [PendingEvent.take]) =
      .ok ⟨.empty, result, result⟩ ∧
    ((queueAfter .empty events).take = .replace →
      Exceeded (sinceAfter [] events)) := by
  obtain ⟨replica, hrun, hleads, hsame⟩ :=
    Consumer.run_leads ⟨.empty, value, value⟩ rfl hemits
  refine ⟨fun hpush ops htake => ?_, ?_, fun htake => ?_⟩
  · obtain rfl : replica = value := hsame hpush
    exact applyOps_take hleads htake
  · rw [Consumer.run, foldlM_except_append_eq_ok_iff]
    refine ⟨_, hrun, ?_⟩
    rw [foldlM_except_cons_eq_ok_iff]
    exact ⟨_, Consumer.step_take hleads, rfl⟩
  have hholds : (queueAfter .empty events).Holds (sinceAfter [] events) :=
    queueAfter_holds .empty rfl events
  cases hqueue : queueAfter .empty events with
  | empty | batch | folding => simp [hqueue, PendingOps.take] at htake
  | replace =>
    rw [hqueue] at hholds
    exact hholds

/-- Two appends to one text fold into one, past a write elsewhere. -/
theorem pendingOps_replay_joinedAppends :
    let first : Op Unit := .a [.key (js ['a'])] (js ['y'])
    let write : Op Unit := .s [.key (js ['b'])] (.num 1)
    let second : Op Unit := .a [.key (js ['a'])] (js ['z'])
    let value : JsonValue :=
      .obj () [(js ['a'], .str (js ['x'])), (js ['b'], .null)]
    let result : JsonValue :=
      .obj () [(js ['a'], .str (js ['x', 'y', 'z'])), (js ['b'], .num 1)]
    let folded : List (Op Unit) := [.a [.key (js ['a'])] (js ['y', 'z']), write]
    (queueAfter .empty [.push [first], .push [write, second]]).take =
        .ops folded ∧
      applyOps value folded = .ok result := by
  intro first write second value result folded
  have htake : (queueAfter .empty [.push [first], .push [write, second]]).take =
      .ops folded := by decide
  have hemits : Emits value
      (pushed [.push [first], .push [write, second]]) result :=
    ⟨by decide, _, rfl, by decide, _, rfl, by decide, result, by decide,
      rfl⟩
  have hreplay := pendingOps_replay value result _ hemits
  exact ⟨htake, hreplay.1 (by simp) folded htake⟩

end Hummin.Delta
