/-
The immutable applier.  The mark of a container says whether it is in `owned`:
a copy made in this replay may be mutated, any other container is copied first.
An append to an array that is not owned takes the `concat` path of its own.
-/
import Hummin.DeltaApply

namespace Hummin

open List Option JsonTree

variable {α : Type}

/-- The own names of an array: its indices and `length`. -/
def arrayHasOwn {V : Type} (items : List V) (name : JsString) : Bool :=
  name == js ['l', 'e', 'n', 'g', 't', 'h'] ||
    (arrayIndex name).any fun at_ => decide (at_ < items.length)

/-- `Object.hasOwn` on a container. -/
def JsonTree.hasOwn : JsonTree α → Seg → Bool
  | .arr _ items, .index at_ => decide (at_ < items.length)
  | .arr _ items, .key name => arrayHasOwn items name
  | .obj _ fields, seg => (PropertyList.get seg.text fields).isSome
  | _, _ => false

/-- A value none of whose containers is owned. -/
def JsonTree.foreign (value : JsonValue) : JsonTree Bool :=
  value.mapMark fun _ => false

/-- The container itself if owned, else its copy, which then is. -/
def JsonTree.own : JsonTree Bool → JsonTree Bool
  | .arr _ items => .arr true items
  | .obj _ fields => .obj true fields
  | value => value

def JsonTree.isOwned : JsonTree Bool → Bool
  | .arr owned _ => owned
  | .obj owned _ => owned
  | _ => false

namespace Delta

def Op.foreign (op : Op Unit) : Op Bool :=
  op.mapMark fun _ => false

/-- The walk of `copyContainers`; `path` is the whole path, for the error. -/
def copyWalk (path : Path) :
    JsonTree Bool → Path → Except Failure (JsonTree Bool)
  | node, rest =>
    if ¬ node.isObj then .error (.pathError path.toJson)
    else match rest with
      | [] => .ok node.own
      | seg :: rest =>
        if ¬ node.hasOwn seg then .error (.pathError path.toJson)
        else match node.child seg with
          | none => .error (.unsafePath seg.toJson)
          | some next => do
              let next ← copyWalk path next rest
              .ok (node.own.setChild seg next)

def copyContainers (root : JsonTree Bool) (path : Path) :
    Except Failure (JsonTree Bool) :=
  copyWalk path root path

/-- `valid` in `appendCopy`: names on objects, numbers on arrays. -/
def plainSegment (node : JsonTree α) : Seg → Bool
  | .key name => !Seg.isReserved (.key name) && node.isObj && !node.isArray
  | .index _ => node.isArray

/-- The walk of `appendCopy` over own properties. -/
def plainWalk : JsonTree α → Path → Option (JsonTree α)
  | node, [] => some node
  | node, seg :: rest =>
    if !plainSegment node seg || !node.hasOwn seg then none
    else (node.child seg).bind fun next => plainWalk next rest

/-- `appendCopy`; `none` sends the splice down the general path. -/
def appendCopy (root : JsonTree Bool) (path : Path) (index deleteCount : Nat)
    (items : List (JsonTree Bool)) :
    Except Failure (Option (JsonTree Bool)) :=
  if deleteCount ≠ 0 then .ok none
  else match plainWalk root path with
    | some (.arr owned elements) =>
      if owned || index ≠ elements.length then .ok none
      else
        let appended := JsonTree.arr true (elements ++ items)
        match path.getLast? with
        | none => .ok (some appended)
        | some key => do
            let parentPath := path.dropLast
            let copiedRoot ← copyContainers root parentPath
            let parent ← resolve copiedRoot parentPath
            let parent ← writeProperty parent key appended
            .ok (some (copiedRoot.replaceAt parentPath parent))
    | _ => .ok none

/-- The containers an operation mutates lie on this path. -/
def Op.containerPath : Op α → Path
  | .p path _ _ _ | .m path _ => path
  | op => op.path.dropLast

/-- The general path: copy the containers, then mutate. -/
def applyCopied (root : JsonTree Bool) (op : Op Bool) :
    Except Failure (JsonTree Bool) := do
  let root ← copyContainers root op.containerPath
  applyOp root op

/-- One round of the loop of `applyImmutableBatches`. -/
def applyImmutableOp (root : JsonTree Bool) (op : Op Bool) :
    Except Failure (JsonTree Bool) := do
  assertValidOp op
  match op with
  | .r value => .ok value
  | .p path index remove items => do
      match ← appendCopy root path index remove items with
      | some appended => .ok appended
      | none => applyCopied root op
  | op => applyCopied root op

/-- `applyImmutableBatches`: the batches in one copy-on-write scope. -/
def applyImmutableBatches (target : JsonValue)
    (batches : List (List (Op Unit))) : Except Failure JsonValue := do
  let root ← batches.foldlM
    (fun root ops => (ops.map Op.foreign).foldlM applyImmutableOp root)
    target.foreign
  .ok root.erase

def applyImmutable (target : JsonValue) (ops : List (Op Unit)) :
    Except Failure JsonValue :=
  applyImmutableBatches target [ops]

/-! ### Copying changes no value -/

@[simp]
theorem erase_own (node : JsonTree Bool) : node.own.erase = node.erase := by
  cases node with
  | null | bool | num | str => rfl
  | _ => simp [JsonTree.own, JsonTree.erase]

theorem child_own (node : JsonTree Bool) (seg : Seg) : node.own.child seg = node.child seg := by
  cases node with
  | arr owned items => cases seg <;> rfl
  | _ => rfl

variable {node next : JsonTree α}

theorem hasOwn_of_child {seg : Seg}
    (hchild : node.child seg = some next) : node.hasOwn seg = true := by
  rcases JsonTree.child_cases hchild with ⟨mark, items, at_, rfl, rfl, hitem⟩ |
    ⟨mark, fields, rfl, hfield⟩
  · simpa [JsonTree.hasOwn] using (List.getElem?_eq_some_iff.mp hitem).1
  · simp [JsonTree.hasOwn, hfield]

theorem erase_setChild (node : JsonTree α) (seg : Seg) (value : JsonTree α) :
    (node.setChild seg value).erase = node.erase.setChild seg value.erase :=
  (setChild_mapMark _ node seg value).symm

theorem erase_replaceAt (node : JsonTree α) (path : Path) (value : JsonTree α) :
    (node.replaceAt path value).erase = node.erase.replaceAt path value.erase :=
  (replaceAt_mapMark _ node path value).symm

theorem child_erase {seg : Seg} (hchild : node.child seg = some next) :
    node.erase.child seg = some next.erase := by
  rw [JsonTree.erase, child_mapMark, hchild]
  rfl

theorem getAt_erase (node : JsonTree α) (path : Path) :
    node.erase.getAt path = (node.getAt path).map JsonTree.erase :=
  getAt_mapMark _ node path

/-- Copying the containers of a path keeps the value. -/
theorem erase_copyWalk {whole rest : Path} {node result : JsonTree Bool}
    (hcopy : copyWalk whole node rest = .ok result) : result.erase = node.erase := by
  induction rest generalizing node result with
  | nil =>
    rw [copyWalk] at hcopy
    split at hcopy
    · simp at hcopy
    cases hcopy
    exact erase_own node
  | cons seg rest ih =>
    rw [copyWalk] at hcopy
    split at hcopy
    · simp at hcopy
    split at hcopy
    · simp at hcopy
    split at hcopy
    · simp at hcopy
    rename_i next hchild
    rw [except_bind_eq_ok_iff] at hcopy
    obtain ⟨copied, hcopied, hok⟩ := hcopy
    cases hok
    rw [erase_setChild, erase_own, ih hcopied]
    exact setChild_self (child_erase hchild)

/-- Copying succeeds on every path to a container. -/
theorem copyWalk_isOk (whole : Path) {rest : Path} {node target : JsonTree Bool}
    (hget : node.getAt rest = some target) (hobj : target.isObj = true) :
    ∃ result, copyWalk whole node rest = .ok result := by
  induction rest generalizing node with
  | nil =>
    obtain rfl := some.inj hget
    exact ⟨node.own, by rw [copyWalk]; simp [hobj]⟩
  | cons seg rest ih =>
    rw [getAt_cons, bind_eq_some_iff] at hget
    obtain ⟨next, hchild, hrest⟩ := hget
    obtain ⟨copied, hcopied⟩ := ih hrest
    refine ⟨node.own.setChild seg copied, ?_⟩
    rw [copyWalk]
    simp [isObj_of_child hchild, hasOwn_of_child hchild, hchild, hcopied]

theorem plainWalk_eq_some {result : JsonTree α} {path : Path}
    (hwalk : plainWalk node path = some result) : node.getAt path = some result := by
  induction path generalizing node with
  | nil => exact hwalk
  | cons seg rest ih =>
    rw [plainWalk] at hwalk
    split at hwalk
    · simp at hwalk
    rw [bind_eq_some_iff] at hwalk
    obtain ⟨next, hchild, hrest⟩ := hwalk
    rw [getAt_cons, hchild]
    exact ih hrest

/-! ### One operation -/

theorem applyOp_erase_eq_ok_iff (root : JsonTree α) (op : Op α) (value : JsonValue) :
    applyOp root.erase op.erase = .ok value ↔
      ∃ result, applyOp root op = .ok result ∧ result.erase = value := by
  rw [JsonTree.erase, Op.erase, applyOp_mapMark]
  cases applyOp root op with
  | error failure => simp [Except.map]
  | ok result => simp [Except.map, JsonTree.erase]

/-- The container an operation edits is there when it applies. -/
theorem container_of_applyOp {root result : JsonTree α} {op : Op α}
    (hok : applyOp root op = .ok result) (hreplace : isReplace op = false) :
    ∃ target, root.getAt op.containerPath = some target ∧ target.isObj = true := by
  rcases op.isLeaf_or_isArray_or_isReplace with hleaf | harray | hr
  · obtain ⟨-, front, key, parent, edited, hpath, hget, hobj, -⟩ :=
      (applyOp_leaf_eq_ok_iff root hleaf result).mp hok
    have hfront : op.containerPath = front := by
      cases op with
      | r | p | m => simp [Op.isLeaf] at hleaf
      | s | d | a | t =>
        rw [Op.containerPath, hpath, dropLast_concat]
        all_goals simp
    exact ⟨parent, hfront ▸ hget, hobj⟩
  · obtain ⟨-, target, edited, hget, hedit, -⟩ :=
      (applyOp_array_eq_ok_iff root harray result).mp hok
    have hpath : op.containerPath = op.path := by
      cases op with
      | r | s | d | a | t => simp [Op.isArray] at harray
      | p | m => rfl
    exact ⟨target, hpath ▸ hget, isObj_of_editArray hedit⟩
  · rw [hr] at hreplace
    simp at hreplace

theorem applyCopied_eq_ok_iff {op : Op Bool} (root : JsonTree Bool)
    (hreplace : isReplace op = false) (value : JsonValue) :
    (∃ result, applyCopied root op = .ok result ∧ result.erase = value) ↔
      applyOp root.erase op.erase = .ok value := by
  constructor
  · rintro ⟨result, hok, rfl⟩
    rw [applyCopied, except_bind_eq_ok_iff] at hok
    obtain ⟨copied, hcopied, hok⟩ := hok
    rw [← erase_copyWalk hcopied]
    exact (applyOp_erase_eq_ok_iff copied op _).mpr ⟨result, hok, rfl⟩
  intro hok
  obtain ⟨result, hresult, -⟩ := (applyOp_erase_eq_ok_iff root op value).mp hok
  obtain ⟨target, hget, hobj⟩ := container_of_applyOp hresult hreplace
  obtain ⟨copied, hcopied⟩ := copyWalk_isOk op.containerPath hget hobj
  rw [← erase_copyWalk hcopied, applyOp_erase_eq_ok_iff] at hok
  obtain ⟨final, hfinal, hvalue⟩ := hok
  refine ⟨final, ?_, hvalue⟩
  rw [applyCopied, copyContainers, hcopied]
  exact hfinal

theorem writeProperty_of_child {parent next : JsonTree α} {key : Seg}
    (hchild : parent.child key = some next) (value : JsonTree α) :
    writeProperty parent key value = .ok (parent.setChild key value) := by
  rw [writeProperty, defineProperty_eq_setChild hchild]

/-- The append path does what the splice does. -/
theorem appendCopy_eq_some {root : JsonTree Bool} {path : Path}
    {index remove : Nat} {items : List (JsonTree Bool)}
    (hvalid : (Op.p path index remove items).Valid) {result : JsonTree Bool}
    (happend : appendCopy root path index remove items = .ok (some result)) :
    applyOp root.erase (Op.p path index remove items).erase = .ok result.erase := by
  rw [appendCopy] at happend
  split at happend
  · simp at happend
  rename_i hremove
  rw [not_not] at hremove
  split at happend
  next owned elements hwalk =>
    split at happend
    · simp at happend
    rename_i hindex
    simp only [Bool.or_eq_true, decide_eq_true_eq, not_or, not_not]
      at hindex
    have hget := plainWalk_eq_some hwalk
    -- the value the splice leaves at the path
    have hsplice : applyOp root (Op.p path index remove items) =
        .ok (root.replaceAt path (.arr owned (elements ++ items))) := by
      refine (applyOp_array_eq_ok_iff root rfl _).mpr ⟨hvalid, _, _, hget, ?_, rfl⟩
      rw [editArray, spliceOp_eq, hremove, hindex.2, Nat.add_zero,
        take_length, drop_length, append_nil]
    refine (applyOp_erase_eq_ok_iff root _ _).mpr ⟨_, hsplice, ?_⟩
    have hmark : (JsonTree.arr owned (elements ++ items)).erase =
        (JsonTree.arr true (elements ++ items)).erase := by
      simp [JsonTree.erase]
    rw [erase_replaceAt, hmark]
    split at happend
    next hnil =>
      obtain rfl := getLast?_eq_none_iff.mp hnil
      cases Except.ok.inj happend
      rfl
    rename_i key hkey
    obtain ⟨front, rfl⟩ := getLast?_eq_some_iff.mp hkey
    rw [dropLast_concat, except_bind_eq_ok_iff] at happend
    obtain ⟨copied, hcopied, happend⟩ := happend
    rw [except_bind_eq_ok_iff] at happend
    obtain ⟨parent, hparent, happend⟩ := happend
    rw [except_bind_eq_ok_iff] at happend
    obtain ⟨written, hwritten, happend⟩ := happend
    cases Except.ok.inj happend
    -- the copied root has the value of the root, so the parent holds
    -- the element that the append overwrites
    have hvalue := erase_copyWalk hcopied
    have hparentGet := ((resolve_eq_ok_iff copied front parent).mp hparent).1
    have hparentErase : root.erase.getAt front = some parent.erase := by
      rw [← hvalue, getAt_erase, hparentGet]
      rfl
    have helement : parent.erase.child key =
        some (JsonTree.arr owned elements).erase := by
      have hwhole : root.erase.getAt (front ++ [key]) =
          some (JsonTree.arr owned elements).erase := by
        rw [getAt_erase, hget]
        rfl
      rw [getAt_append_of_eq hparentErase] at hwhole
      simpa using hwhole
    obtain ⟨old, hold⟩ : ∃ old, parent.child key = some old := by
      rw [JsonTree.erase, child_mapMark] at helement
      obtain ⟨old, hold, -⟩ := map_eq_some_iff.mp helement
      exact ⟨old, hold⟩
    rw [writeProperty_of_child hold] at hwritten
    cases hwritten
    rw [replaceAt_append hparentErase, erase_replaceAt, hvalue,
      erase_setChild, replaceAt_cons helement,
      replaceAt_nil]
  · simp at happend

variable (root : JsonTree Bool) (value : JsonValue) (path : Path)

theorem appendCopy_isOk (index remove : Nat) (items : List (JsonTree Bool)) :
    ∃ result, appendCopy root path index remove items = .ok result := by
  rw [appendCopy]
  split
  · exact ⟨none, rfl⟩
  split
  next owned elements hwalk =>
    split
    · exact ⟨none, rfl⟩
    simp only
    split
    · exact ⟨_, rfl⟩
    rename_i key hkey
    obtain ⟨front, rfl⟩ := getLast?_eq_some_iff.mp hkey
    have hget := plainWalk_eq_some hwalk
    rw [getAt_append, bind_eq_some_iff] at hget
    obtain ⟨parent, hparent, hchild⟩ := hget
    have hchild' : parent.child key = some (.arr owned elements) := by
      simpa using hchild
    obtain ⟨copied, hcopied⟩ := copyWalk_isOk front hparent
      (isObj_of_child hchild')
    have hvalue := erase_copyWalk hcopied
    -- the parent in the copied root
    obtain ⟨parent', hparent', herase⟩ : ∃ parent', copied.getAt front =
        some parent' ∧ parent'.erase = parent.erase := by
      have hsame : copied.erase.getAt front = some parent.erase := by
        rw [hvalue, getAt_erase, hparent]
        rfl
      rw [getAt_erase] at hsame
      exact map_eq_some_iff.mp hsame
    obtain ⟨old, hold⟩ : ∃ old, parent'.child key = some old := by
      have hsame := child_erase hchild'
      rw [← herase, JsonTree.erase, child_mapMark] at hsame
      obtain ⟨old, hold, -⟩ := map_eq_some_iff.mp hsame
      exact ⟨old, hold⟩
    have hresolve := (resolve_eq_ok_iff copied front parent').mpr
      ⟨hparent', isObj_of_child hold⟩
    refine ⟨some (copied.replaceAt front
      (parent'.setChild key (.arr true (elements ++ items)))), ?_⟩
    rw [dropLast_concat, copyContainers, hcopied, except_bind_ok,
      hresolve, except_bind_ok, writeProperty_of_child hold]
    rfl
  · exact ⟨none, rfl⟩

/-- One immutable round agrees with one mutable round. -/
theorem applyImmutableOp_eq_ok_iff (op : Op Bool) (value : JsonValue) :
    (∃ result, applyImmutableOp root op = .ok result ∧ result.erase = value) ↔
      applyOp root.erase op.erase = .ok value := by
  by_cases hvalid : op.Valid
  · rw [applyImmutableOp.eq_def, show assertValidOp op = .ok () from hvalid,
      except_bind_ok]
    cases op with
    | r replacement => simp [Op.erase, Op.mapMark, applyOp_r, JsonTree.erase]
    | s | d | a | t | m => exact applyCopied_eq_ok_iff root rfl value
    | p path index remove items =>
      obtain ⟨appended, happended⟩ :=
        appendCopy_isOk root path index remove items
      simp only [happended, except_bind_ok]
      cases appended with
      | none => exact applyCopied_eq_ok_iff root rfl value
      | some appended =>
        rw [appendCopy_eq_some hvalid happended]
        simp
  constructor
  · rintro ⟨result, hok, -⟩
    rw [applyImmutableOp.eq_def, except_bind_eq_ok_iff] at hok
    obtain ⟨accepted, haccepted, -⟩ := hok
    exact absurd haccepted hvalid
  intro hok
  exact absurd ((valid_mapMark _ op).mp (valid_of_applyOp hok)) hvalid

/-! ### Whole replays -/

@[simp]
theorem erase_foreign : value.foreign.erase = value := by
  rw [JsonTree.foreign, erase_mapMark, erase_self]

@[simp]
theorem Op.erase_foreign (op : Op Unit) : op.foreign.erase = op := by
  have hfun : ((JsonTree.mapMark fun _ : Bool => ()) ∘
      JsonTree.mapMark fun _ : Unit => false) = id :=
    funext fun tree => by rw [Function.comp_apply]; exact Delta.erase_foreign tree
  cases op with
  | d | a | t | m => rfl
  | r value => exact congrArg Op.r (Delta.erase_foreign value)
  | s path value => exact congrArg (Op.s path) (Delta.erase_foreign value)
  | p path index remove items =>
    simp [Op.erase, Op.foreign, Op.mapMark, hfun]

/-- Rounds that agree on what is left without marks agree on it in a whole replay. -/
theorem foldlM_erase_eq_ok_iff {β : Type}
    {marked : JsonTree Bool → β → Except Failure (JsonTree Bool)}
    {plain : JsonValue → β → Except Failure JsonValue} (items : List β)
    (hround : ∀ root item value, (∃ result, marked root item = .ok result ∧ result.erase = value) ↔
      plain root.erase item = .ok value) (value : JsonValue) :
    (∃ result, items.foldlM marked root = .ok result ∧ result.erase = value) ↔
      items.foldlM plain root.erase = .ok value := by
  induction items generalizing root with
  | nil => simp
  | cons item rest ih =>
    rw [foldlM_except_cons_eq_ok_iff]
    constructor
    · rintro ⟨result, hok, hvalue⟩
      obtain ⟨middle, hmiddle, hrest⟩ := (foldlM_except_cons_eq_ok_iff _ _ _ _ _).mp hok
      exact ⟨middle.erase, (hround _ _ _).mp ⟨middle, hmiddle, rfl⟩, (ih _).mp ⟨result, hrest, hvalue⟩⟩
    rintro ⟨middle, hmiddle, hrest⟩
    obtain ⟨next, hnext, rfl⟩ := (hround _ _ _).mpr hmiddle
    obtain ⟨result, hresult, hvalue⟩ := (ih _).mpr hrest
    exact ⟨result, (foldlM_except_cons_eq_ok_iff _ _ _ _ _).mpr ⟨next, hnext, hresult⟩, hvalue⟩

/-- The immutable replay of batches gives what the mutable applier gives on all
operations in order, and fails exactly when it fails. -/
theorem applyImmutableBatches_eq_ok_iff (target : JsonValue)
    (batches : List (List (Op Unit))) (value : JsonValue) :
    applyImmutableBatches target batches = .ok value ↔
      applyOps target batches.flatten = .ok value := by
  have hflat : batches.foldlM applyOps target = applyOps target batches.flatten := by
    induction batches generalizing target with
    | nil => rfl
    | cons batch rest ih =>
      rw [flatten_cons, applyOps, foldlM_append, foldlM_cons]
      exact congrArg _ (funext ih)
  have hstart := foldlM_erase_eq_ok_iff target.foreign batches
    (fun root ops => foldlM_erase_eq_ok_iff root ops fun root op value => by
      rw [applyImmutableOp_eq_ok_iff root op.foreign, Op.erase_foreign]) value
  rw [erase_foreign] at hstart
  rw [← hflat]
  refine Iff.trans ?_ hstart
  simp only [applyImmutableBatches, except_bind_eq_ok_iff, foldlM_map, Except.ok.injEq]

end Delta

end Hummin
