/-
The mutable applier.  A container reached by `resolve` is mutated where it
stands, so one operation is: validate, resolve, edit the container, put it back
at its path.  The edits themselves are functions of the container alone.
-/
import Hummin.DeltaOp
import Hummin.ExceptBind

namespace Hummin

open List Option PropertyList JsonTree

variable {α β : Type}

/-- `Array.prototype.splice` with natural arguments. -/
def splice {V : Type} (items : List V) (start remove : Nat)
    (inserted : List V) : List V :=
  let from_ := min start items.length
  items.take from_ ++ inserted ++ items.drop (from_ + remove)

theorem splice_eq {V : Type} (items : List V) (start remove : Nat) (inserted : List V) :
    splice items start remove inserted =
      items.take start ++ inserted ++ items.drop (start + remove) := by
  unfold splice
  rcases Nat.le_total start items.length with hle | hle
  · rw [min_eq_left hle]
  rw [min_eq_right hle, take_of_length_le hle]
  change items.take items.length ++ inserted ++
    items.drop (items.length + remove) = _
  rw [take_length, drop_eq_nil_of_le (by omega),
    drop_eq_nil_of_le (by omega)]

theorem mem_splice {V : Type} {items inserted : List V} {start remove : Nat}
    {item : V} (hitem : item ∈ splice items start remove inserted) :
    item ∈ items ∨ item ∈ inserted := by
  rw [splice_eq] at hitem
  simp only [mem_append] at hitem
  rcases hitem with (hleft | hnew) | hright
  · exact Or.inl (mem_of_mem_take hleft)
  · exact Or.inr hnew
  · exact Or.inl (mem_of_mem_drop hright)

theorem splice_map {V W : Type} (f : V → W) (items inserted : List V) (start remove : Nat) :
    (splice items start remove inserted).map f =
      splice (items.map f) start remove (inserted.map f) := by
  simp [splice_eq]

namespace Delta

/-- The number of items one `splice` call inserts. -/
def chunkSize : Nat := 10000

/-- The loop that inserts the items of a `p` in chunks; one iteration of fuel
inserts at least one item. -/
def insertChunks {V : Type} : Nat → List V → Nat → List V → List V
  | 0, target, _, _ => target
  | fuel + 1, target, at_, items =>
    if items.isEmpty then target
    else insertChunks fuel (splice target at_ 0 (items.take chunkSize))
      (at_ + chunkSize) (items.drop chunkSize)

/-- The effect of `p` on its array: the removal, then the chunked insertion. -/
def spliceOp {V : Type} (target : List V) (index remove : Nat)
    (items : List V) : List V :=
  insertChunks items.length (splice target index remove []) index items

/-- `new[i] = old[permutation[i]]`; `none` if an index is out of range. -/
def permuteOp {V : Type} (previous : List V) (permutation : List Nat) :
    Option (List V) :=
  permutation.mapM fun index => previous[index]?

/-- The walk of `resolve`; `path` is the whole path, for the error. -/
def resolveValue (path : Path) :
    JsonTree α → Path → Except Failure (JsonTree α)
  | node, [] => .ok node
  | node, seg :: rest =>
    if ¬ node.isObj then .error (.pathError path.toJson)
    else if node.isArray && !seg.isNumber then
      .error (.unsafePath seg.toJson)
    else match node.child seg with
      | none => .error (.pathError path.toJson)
      | some next => resolveValue path next rest

def resolve (root : JsonTree α) (path : Path) :
    Except Failure (JsonTree α) := do
  let node ← resolveValue path root path
  if node.isObj then .ok node else .error (.pathError path.toJson)

/-- The guard on an array parent: a number, at most one past the end. -/
def assertParentKey : JsonTree α → Seg → Except Failure Unit
  | .arr _ _, .key name => .error (.unsafePath (.str name))
  | .arr _ items, .index at_ =>
    if items.length < at_ then .error (.unsafePath (.num at_)) else .ok ()
  | _, _ => .ok ()

def writeProperty (parent : JsonTree α) (key : Seg) (value : JsonTree α) :
    Except Failure (JsonTree α) :=
  match parent.defineProperty key value with
  | some node => .ok node
  | none => .error .notJson

/-- The switch over `s`, `d`, `a` and `t` on the container that holds the
addressed property. -/
def editParent (op : Op α) (key : Seg) (parent : JsonTree α) :
    Except Failure (JsonTree α) := do
  assertParentKey parent key
  match op with
  | .s _ value => writeProperty parent key value
  | .d path =>
    match parent, key with
    | .arr mark items, .index at_ =>
      if items.length ≤ at_ then .error (.pathError path.toJson)
      else .ok (.arr mark (splice items at_ 1 []))
    | .obj mark fields, key =>
      .ok (.obj mark (PropertyList.erase key.text fields))
    | parent, _ => .ok parent
  | .a path text =>
    match parent.child key with
    | some (.str current) => writeProperty parent key (.str (current ++ text))
    | _ => .error (.pathError path.toJson)
  | .t path count =>
    match parent.child key with
    | some (.str current) =>
      writeProperty parent key (.str (current.drop count))
    | _ => .error (.pathError path.toJson)
  | _ => .ok parent

/-- The effect of `p` and `m` on their target. -/
def editArray (op : Op α) (target : JsonTree α) :
    Except Failure (JsonTree α) :=
  match op, target with
  | .p _ index remove items, .arr mark elements =>
    .ok (.arr mark (spliceOp elements index remove items))
  | .m path permutation, .arr mark elements =>
    if elements.length ≠ permutation.length then
      .error (.pathError path.toJson)
    else match permuteOp elements permutation with
      | some elements' => .ok (.arr mark elements')
      | none => .error .notJson
  | op, _ => .error (.pathError op.path.toJson)

/-- The target of `p` and `m`: the root itself, or a resolved container. -/
def arrayTarget (root : JsonTree α) (path : Path) :
    Except Failure (JsonTree α) :=
  if path.isEmpty then .ok root else resolve root path

/-- One round of the loop of `applyOps`. -/
def applyOp (root : JsonTree α) (op : Op α) : Except Failure (JsonTree α) := do
  assertValidOp op
  match op with
  | .r value => .ok value
  | .p path _ _ _ | .m path _ => do
      assertSafePath path
      let target ← arrayTarget root path
      let target ← editArray op target
      .ok (root.replaceAt path target)
  | .s path _ | .d path | .a path _ | .t path _ => do
      assertSafePath path
      let parent ← resolve root path.dropLast
      match path.getLast? with
      | none => .error (.typeError "path is empty")
      | some key => do
          let parent ← editParent op key parent
          .ok (root.replaceAt path.dropLast parent)

/-- `apply`: the operations in order. -/
def applyOps (root : JsonTree α) (ops : List (Op α)) :
    Except Failure (JsonTree α) :=
  ops.foldlM applyOp root

/-! ### The chunked insertion is one splice -/

variable {V : Type}

theorem insertChunks_eq_splice (fuel : Nat) (target : List V)
    (at_ : Nat) (items : List V) (hfuel : items.length ≤ fuel) :
    insertChunks fuel target at_ items = splice target at_ 0 items := by
  induction fuel generalizing target at_ items with
  | zero =>
    obtain rfl := length_eq_zero_iff.mp (Nat.le_zero.mp hfuel)
    simp [insertChunks, splice_eq]
  | succ fuel ih =>
    rw [insertChunks]
    split
    next hempty =>
      obtain rfl := List.isEmpty_iff.mp hempty
      simp [splice_eq]
    rename_i hne
    have hpos : items.length ≠ 0 := by
      simpa [List.isEmpty_iff, length_eq_zero_iff] using hne
    rw [ih _ _ _ (by simp [chunkSize]; omega)]
    rcases Nat.lt_or_ge chunkSize items.length with hlong | hshort
    · -- a full chunk: the next one lands right behind it
      have htake : (items.take chunkSize).length = chunkSize := by
        simp [hlong.le]
      rcases Nat.le_total at_ target.length with hin | hout
      · have hfront : (target.take at_ ++ items.take chunkSize).length =
            at_ + chunkSize := by
          simp [htake, hin]
        simp only [splice_eq, Nat.add_zero]
        rw [take_left' hfront, drop_left' hfront]
        simp [append_assoc]
      have hback : (target ++ items.take chunkSize).length ≤
          at_ + chunkSize := by
        rw [length_append, htake]
        omega
      simp only [splice_eq, Nat.add_zero, take_of_length_le hout,
        drop_eq_nil_of_le hout, append_nil]
      rw [take_of_length_le hback, drop_eq_nil_of_le hback]
      simp [append_assoc]
    · rw [take_of_length_le hshort, drop_eq_nil_of_le hshort]
      simp [splice_eq, take_append_drop]

theorem spliceOp_eq (target : List V) (index remove : Nat) (items : List V) :
    spliceOp target index remove items =
      target.take index ++ items ++ target.drop (index + remove) := by
  rw [spliceOp, insertChunks_eq_splice _ _ _ _ le_rfl]
  simp only [splice_eq, Nat.add_zero, append_nil]
  rcases Nat.le_total index target.length with hin | hout
  · have hfront : (target.take index).length = index := by simp [hin]
    rw [take_left' hfront, drop_left' hfront]
  rw [take_of_length_le hout, drop_eq_nil_of_le (by omega),
    append_nil, take_of_length_le hout,
    drop_eq_nil_of_le hout]

/-! ### Resolution -/

variable {root parent : JsonTree α} (f : α → β) (path : Path) {target : JsonTree α}
    (node : JsonTree α) (rest : Path)

/-- Resolving succeeds exactly at the nodes of the value. -/
theorem resolveValue_eq_ok_iff (result : JsonTree α) :
    resolveValue path node rest = .ok result ↔ node.getAt rest = some result := by
  induction rest generalizing node with
  | nil => simp [resolveValue]
  | cons seg rest ih =>
    rw [resolveValue, getAt_cons]
    cases hchild : node.child seg with
    | none =>
      split_ifs <;> simp
    | some next =>
      have hobj : node.isObj = true := isObj_of_child hchild
      have hkind : (node.isArray && !seg.isNumber) = false := by
        obtain ⟨_, _, _, rfl, rfl, -⟩ | ⟨_, _, rfl, -⟩ := JsonTree.child_cases hchild <;> rfl
      simpa [hobj, hkind] using ih next

theorem resolve_eq_ok_iff (root : JsonTree α) (path : Path) (node : JsonTree α) :
    resolve root path = .ok node ↔ root.getAt path = some node ∧ node.isObj = true := by
  rw [resolve, except_bind_eq_ok_iff]
  constructor
  · rintro ⟨found, hfound, hok⟩
    split at hok
    next hobj =>
      obtain rfl := Except.ok.inj hok
      exact ⟨(resolveValue_eq_ok_iff path root path found).mp hfound, hobj⟩
    · simp at hok
  rintro ⟨hget, hobj⟩
  refine ⟨node, (resolveValue_eq_ok_iff path root path node).mpr hget, ?_⟩
  simp [hobj]

theorem arrayTarget_eq_ok_iff (root : JsonTree α) (path : Path)
    {target : JsonTree α} (hobj : target.isObj = true) :
    arrayTarget root path = .ok target ↔ root.getAt path = some target := by
  cases path with
  | nil => simp [arrayTarget]
  | cons seg rest =>
    rw [arrayTarget, isEmpty_cons, if_neg (by simp), resolve_eq_ok_iff]
    simp [hobj]

/-! ### One operation, inverted -/

theorem applyOp_r (root value : JsonTree α) : applyOp root (.r value) = .ok value := rfl

variable {result : JsonTree α}

theorem valid_of_applyOp {op : Op α} (hok : applyOp root op = .ok result) : op.Valid := by
  rw [applyOp.eq_def, except_bind_eq_ok_iff] at hok
  obtain ⟨accepted, haccepted, -⟩ := hok
  exact haccepted

variable {edited : JsonTree α} {op : Op α}

variable {front : Path}

theorem applyOp_leaf (hleaf : op.isLeaf = true) (hvalid : op.Valid) {key : Seg}
    (hpath : op.path = front ++ [key]) :
    applyOp root op = (do
      let parent ← resolve root front
      let parent ← editParent op key parent
      .ok (root.replaceAt front parent)) := by
  have hsafe : assertSafePath op.path = .ok () :=
    (assertSafePath_eq_ok_iff op.path).mpr hvalid.safe
  rw [applyOp.eq_def, show assertValidOp op = .ok () from hvalid]
  cases op with
  | r value | p path index remove items | m path permutation =>
    simp [Op.isLeaf] at hleaf
  | s path value | d path | a path text | t path count =>
    simp only [Op.path] at hpath hsafe
    subst hpath
    simp [hsafe]

theorem applyOp_array (harray : op.isArray = true) (hvalid : op.Valid) :
    applyOp root op = (do
      let target ← arrayTarget root op.path
      let target ← editArray op target
      .ok (root.replaceAt op.path target)) := by
  have hsafe : assertSafePath op.path = .ok () :=
    (assertSafePath_eq_ok_iff op.path).mpr hvalid.safe
  rw [applyOp.eq_def, show assertValidOp op = .ok () from hvalid]
  cases op with
  | r value | s path value | d path | a path text | t path count =>
    simp [Op.isArray] at harray
  | p path index remove items | m path permutation =>
    simp only [Op.path] at hsafe
    simp [hsafe, Op.path]

/-- What it takes for a leaf operation to apply, and what it gives. -/
theorem applyOp_leaf_eq_ok_iff (root : JsonTree α) {op : Op α}
    (hleaf : op.isLeaf = true) (result : JsonTree α) :
    applyOp root op = .ok result ↔
      op.Valid ∧ ∃ (front : Path) (key : Seg) (parent edited : JsonTree α),
        op.path = front ++ [key] ∧ root.getAt front = some parent ∧
        parent.isObj = true ∧ editParent op key parent = .ok edited ∧
        result = root.replaceAt front edited := by
  constructor
  · intro hok
    have hvalid := valid_of_applyOp hok
    have hne := hvalid.path_ne_nil hleaf
    have hpath := (dropLast_append_getLast hne).symm
    rw [applyOp_leaf hleaf hvalid hpath, except_bind_eq_ok_iff] at hok
    obtain ⟨parent, hresolve, hok⟩ := hok
    rw [except_bind_eq_ok_iff] at hok
    obtain ⟨edited, hedit, hok⟩ := hok
    obtain ⟨hget, hobj⟩ := (resolve_eq_ok_iff root _ parent).mp hresolve
    exact ⟨hvalid, _, _, parent, edited, hpath, hget, hobj, hedit, Except.ok.inj hok.symm⟩
  rintro ⟨hvalid, front, key, parent, edited, hpath, hget, hobj, hedit, rfl⟩
  have hresolve := (resolve_eq_ok_iff root front parent).mpr ⟨hget, hobj⟩
  rw [applyOp_leaf hleaf hvalid hpath, hresolve, except_bind_ok, hedit]
  rfl

theorem isObj_of_editArray {target edited : JsonTree α}
    (hedit : editArray op target = .ok edited) : target.isObj = true := by
  cases target with
  | null | bool | num | str | obj => cases op <;> simp [editArray] at hedit
  | arr mark elements => rfl

/-- What it takes for `p` or `m` to apply, and what it gives. -/
theorem applyOp_array_eq_ok_iff (root : JsonTree α) {op : Op α}
    (harray : op.isArray = true) (result : JsonTree α) :
    applyOp root op = .ok result ↔
      op.Valid ∧ ∃ target edited : JsonTree α,
        root.getAt op.path = some target ∧ editArray op target = .ok edited ∧
        result = root.replaceAt op.path edited := by
  constructor
  · intro hok
    have hvalid := valid_of_applyOp hok
    rw [applyOp_array harray hvalid, except_bind_eq_ok_iff] at hok
    obtain ⟨target, htarget, hok⟩ := hok
    rw [except_bind_eq_ok_iff] at hok
    obtain ⟨edited, hedit, hok⟩ := hok
    rw [arrayTarget_eq_ok_iff root op.path (isObj_of_editArray hedit)]
      at htarget
    exact ⟨hvalid, target, edited, htarget, hedit, Except.ok.inj hok.symm⟩
  rintro ⟨hvalid, target, edited, hget, hedit, rfl⟩
  rw [applyOp_array harray hvalid,
    (arrayTarget_eq_ok_iff root op.path (isObj_of_editArray hedit)).mpr hget,
    except_bind_ok, hedit]
  rfl

/-! ### No write leaves strict JSON -/

variable {permutation : List Nat}

theorem permuteOp_isSome {previous : List V}
    (hrange : ∀ index ∈ permutation, index < previous.length) :
    ∃ permuted, permuteOp previous permutation = some permuted := by
  unfold permuteOp
  induction permutation with
  | nil => exact ⟨[], rfl⟩
  | cons index rest ih =>
    obtain ⟨tail, htail⟩ := ih fun other hother =>
      hrange other (mem_cons_of_mem _ hother)
    have hlt := hrange index mem_cons_self
    refine ⟨previous[index] :: tail, ?_⟩
    rw [mapM_cons, htail, getElem?_eq_getElem hlt]
    rfl

theorem mem_of_permuteOp {previous permuted : List V} (hpermute : permuteOp previous permutation =
      some permuted) {item : V} (hitem : item ∈ permuted) : item ∈ previous := by
  unfold permuteOp at hpermute
  induction permutation generalizing permuted with
  | nil =>
    cases hpermute
    simp at hitem
  | cons index rest ih =>
    rw [mapM_cons] at hpermute
    simp only [bind_eq_bind, bind_eq_some_iff, Option.pure_def, some.injEq] at hpermute
    obtain ⟨head, hhead, tail, htail, rfl⟩ := hpermute
    rcases mem_cons.mp hitem with rfl | hitem
    · exact mem_of_getElem? hhead
    · exact ih htail hitem

variable {key : Seg}

theorem writeProperty_ne_notJson (hobj : parent.isObj = true)
    (hkey : assertParentKey parent key = .ok ())
    (value : JsonTree α) : writeProperty parent key value ≠ .error .notJson := by
  cases parent with
  | null | bool | num | str => simp [JsonTree.isObj] at hobj
  | arr mark items =>
    cases key with
    | key name => simp [assertParentKey] at hkey
    | index at_ =>
      have hle : at_ ≤ items.length := by
        by_contra hlong
        simp [assertParentKey, Nat.lt_of_not_ge hlong] at hkey
      rw [writeProperty, JsonTree.defineProperty]
      rcases Nat.lt_or_eq_of_le hle with hlt | heq
      · simp [hlt]
      · simp [heq]
  | obj mark fields => simp [writeProperty, JsonTree.defineProperty]

theorem assertParentKey_ne_notJson (parent : JsonTree α) (key : Seg) :
    assertParentKey parent key ≠ .error .notJson := by
  cases parent with
  | null | bool | num | str | obj => cases key <;> simp [assertParentKey]
  | arr mark items =>
    cases key with
    | key name => simp [assertParentKey]
    | index at_ =>
      rw [assertParentKey]
      split <;> simp

theorem editParent_ne_notJson (hobj : parent.isObj = true)
    (op : Op α) (key : Seg) : editParent op key parent ≠ .error .notJson := by
  rw [editParent.eq_def]
  intro herror
  rw [except_bind_eq_error_iff] at herror
  rcases herror with hguard | ⟨accepted, hkey, herror⟩
  · exact assertParentKey_ne_notJson parent key hguard
  cases op with
  | r value | p path index remove items | m path permutation =>
    simp at herror
  | s path value => exact writeProperty_ne_notJson hobj hkey value herror
  | d path =>
    cases parent with
    | null | bool | num | str | obj => simp at herror
    | arr mark items =>
      cases key with
      | key name => simp at herror
      | index at_ =>
        simp only at herror
        split at herror <;> simp at herror
  | a path text | t path count =>
    simp only at herror
    split at herror
    · exact writeProperty_ne_notJson hobj hkey _ herror
    · simp at herror

theorem editArray_ne_notJson (hvalid : op.Valid)
    (target : JsonTree α) : editArray op target ≠ .error .notJson := by
  cases op with
  | r value | s path value | d path | a path text | t path count =>
    simp [editArray]
  | p path index remove items => cases target <;> simp [editArray]
  | m path permutation =>
    cases target with
    | null | bool | num | str | obj => simp [editArray]
    | arr mark elements =>
      rw [editArray]
      split
      · simp
      rename_i hlength
      rw [not_not] at hlength
      have hrange := ((valid_m_iff path permutation).mp hvalid).2.1
      rw [← hlength] at hrange
      obtain ⟨permuted, hpermuted⟩ := permuteOp_isSome hrange
      simp [hpermuted]

theorem assertSafePath_ne_notJson : assertSafePath path ≠ .error .notJson := by
  induction path with
  | nil => simp [assertSafePath]
  | cons seg rest ih =>
    rw [assertSafePath]
    split
    · simp
    · exact ih

theorem assertPathArg_ne_notJson (nonEmpty : Bool) :
    assertPathArg path nonEmpty ≠ .error .notJson := by
  rw [assertPathArg]
  split
  · simp
  · exact assertSafePath_ne_notJson path

theorem assertBijection_ne_notJson (length : Nat) (seen rest : List Nat) :
    assertBijection length seen rest ≠ .error .notJson := by
  induction rest generalizing seen with
  | nil => simp [assertBijection]
  | cons index tail ih =>
    rw [assertBijection]
    split
    · simp
    · exact ih _

theorem assertValidOp_ne_notJson (op : Op α) : assertValidOp op ≠ .error .notJson := by
  cases op with
  | r value => simp [assertValidOp]
  | s path value | d path | a path text | t path count
  | p path index remove items => exact assertPathArg_ne_notJson path _
  | m path permutation =>
    rw [assertValidOp]
    intro herror
    rw [except_bind_eq_error_iff] at herror
    rcases herror with hpath | ⟨accepted, -, hperm⟩
    · exact assertPathArg_ne_notJson path false hpath
    · exact assertBijection_ne_notJson _ _ _ hperm

theorem resolveValue_ne_notJson : resolveValue path node rest ≠ .error .notJson := by
  induction rest generalizing node with
  | nil => simp [resolveValue]
  | cons seg rest ih =>
    rw [resolveValue]
    split
    · simp
    split
    · simp
    split
    · simp
    · exact ih _

theorem resolve_ne_notJson (root : JsonTree α) (path : Path) :
    resolve root path ≠ .error .notJson := by
  rw [resolve]
  intro herror
  rw [except_bind_eq_error_iff] at herror
  rcases herror with hvalue | ⟨node, -, herror⟩
  · exact resolveValue_ne_notJson path root path hvalue
  · split at herror <;> simp at herror

theorem Op.isLeaf_or_isArray_or_isReplace (op : Op α) :
    op.isLeaf = true ∨ op.isArray = true ∨ isReplace op = true := by
  cases op <;> simp [isLeaf, isArray, isReplace]

/-- Applying an operation throws or gives a value of strict JSON shape. -/
theorem applyOp_ne_notJson (root : JsonTree α) (op : Op α) : applyOp root op ≠ .error .notJson := by
  intro herror
  by_cases hvalid : op.Valid
  · cases hleaf : op.isLeaf with
    | true =>
      have hne := hvalid.path_ne_nil hleaf
      rw [applyOp_leaf hleaf hvalid (dropLast_append_getLast hne).symm,
        except_bind_eq_error_iff] at herror
      rcases herror with hresolve | ⟨parent, hresolve, herror⟩
      · exact resolve_ne_notJson root _ hresolve
      have hobj := ((resolve_eq_ok_iff root _ parent).mp hresolve).2
      rw [except_bind_eq_error_iff] at herror
      rcases herror with hedit | ⟨edited, -, herror⟩
      · exact editParent_ne_notJson hobj op _ hedit
      · simp at herror
    | false =>
      cases harray : op.isArray with
      | true =>
        rw [applyOp_array harray hvalid, except_bind_eq_error_iff] at herror
        rcases herror with htarget | ⟨target, -, herror⟩
        · rw [arrayTarget] at htarget
          split at htarget
          · simp at htarget
          · exact resolve_ne_notJson root _ htarget
        rw [except_bind_eq_error_iff] at herror
        rcases herror with hedit | ⟨edited, -, herror⟩
        · exact editArray_ne_notJson hvalid target hedit
        · simp at herror
      | false =>
        cases op with
        | r value => simp [applyOp_r] at herror
        | s path value | d path | a path text | t path count
        | p path index remove items | m path permutation =>
          simp [Op.isLeaf, Op.isArray] at hleaf harray
  rw [applyOp.eq_def, except_bind_eq_error_iff] at herror
  rcases herror with hassert | ⟨accepted, haccepted, -⟩
  · exact assertValidOp_ne_notJson op hassert
  · exact hvalid haccepted

theorem editParent_strict (hparent : parent.Strict) (hop : op.Strict)
    (hedit : editParent op key parent = .ok edited) : edited.Strict := by
  have hwrite : ∀ value : JsonTree α, value.Strict →
      writeProperty parent key value = .ok edited → edited.Strict := by
    intro value hvalue hok
    rw [writeProperty] at hok
    split at hok
    next node hdefine =>
      cases hok
      exact hparent.defineProperty hvalue hdefine
    · simp at hok
  rw [editParent.eq_def, except_bind_eq_ok_iff] at hedit
  obtain ⟨accepted, -, hedit⟩ := hedit
  cases op with
  | r value | p path index remove items | m path permutation =>
    cases hedit
    exact hparent
  | s path value => exact hwrite value hop hedit
  | d path =>
    cases parent with
    | null | bool | num | str =>
      cases hedit
      exact hparent
    | arr mark items =>
      cases key with
      | key name =>
        cases hedit
        exact hparent
      | index at_ =>
        simp only at hedit
        split at hedit
        · simp at hedit
        cases hedit
        rw [strict_arr_iff] at hparent ⊢
        intro item hitem
        rcases mem_splice hitem with hold | hnew
        · exact hparent item hold
        · simp at hnew
    | obj mark fields =>
      cases hedit
      rw [strict_obj_iff] at hparent ⊢
      refine ⟨keys_erase_nodup key.text hparent.1, ?_⟩
      intro field hfield
      exact hparent.2 field (mem_of_mem_filter hfield)
  | a path text | t path count =>
    simp only at hedit
    split at hedit
    · exact hwrite _ (strict_str _) hedit
    · simp at hedit

theorem editArray_strict (htarget : target.Strict) (hop : op.Strict)
    (hedit : editArray op target = .ok edited) : edited.Strict := by
  cases target with
  | null | bool | num | str | obj => cases op <;> simp [editArray] at hedit
  | arr mark elements =>
    rw [strict_arr_iff] at htarget
    cases op with
    | r value | s path value | d path | a path text | t path count =>
      simp [editArray] at hedit
    | p path index remove items =>
      cases hedit
      rw [strict_arr_iff, spliceOp_eq]
      intro item hitem
      simp only [mem_append] at hitem
      rcases hitem with (hleft | hnew) | hright
      · exact htarget item (mem_of_mem_take hleft)
      · exact hop item hnew
      · exact htarget item (mem_of_mem_drop hright)
    | m path permutation =>
      rw [editArray] at hedit
      split at hedit
      · simp at hedit
      split at hedit
      next permuted hpermute =>
        cases hedit
        rw [strict_arr_iff]
        intro item hitem
        exact htarget item (mem_of_permuteOp hpermute hitem)
      · simp at hedit

/-- Applying a strict operation to a strict value gives a strict value. -/
theorem applyOp_strict {op : Op α} (hroot : root.Strict) (hop : op.Strict)
    (hok : applyOp root op = .ok result) : result.Strict := by
  cases hleaf : op.isLeaf with
  | true =>
    obtain ⟨-, front, key, parent, edited, -, hget, -, hedit, rfl⟩ :=
      (applyOp_leaf_eq_ok_iff root hleaf result).mp hok
    exact hroot.replaceAt front
      (editParent_strict (hroot.getAt hget) hop hedit)
  | false =>
    cases harray : op.isArray with
    | true =>
      obtain ⟨-, target, edited, hget, hedit, rfl⟩ :=
        (applyOp_array_eq_ok_iff root harray result).mp hok
      exact hroot.replaceAt op.path
        (editArray_strict (hroot.getAt hget) hop hedit)
    | false =>
      cases op with
      | r value =>
        cases hok
        exact hop
      | s path value | d path | a path text | t path count
      | p path index remove items | m path permutation =>
        simp [Op.isLeaf, Op.isArray] at hleaf harray

/-! ### Marks -/

theorem permuteOp_map {W : Type} (f : V → W) (previous : List V) (permutation : List Nat) :
    permuteOp (previous.map f) permutation = (permuteOp previous permutation).map (map f) := by
  unfold permuteOp
  induction permutation with
  | nil => rfl
  | cons index rest ih =>
    rw [mapM_cons, mapM_cons, ih, getElem?_map]
    cases previous[index]? with
    | none => rfl
    | some item =>
      cases rest.mapM fun index => previous[index]? <;> rfl

theorem resolveValue_mapMark :
    resolveValue path (node.mapMark f) rest =
      (resolveValue path node rest).map (JsonTree.mapMark f) := by
  induction rest generalizing node with
  | nil => rfl
  | cons seg rest ih =>
    simp only [resolveValue, isObj_mapMark, JsonTree.isArray_mapMark, child_mapMark]
    split
    · rfl
    split
    · rfl
    cases node.child seg with
    | none => rfl
    | some next => exact ih next

theorem resolve_mapMark (root : JsonTree α) (path : Path) :
    resolve (root.mapMark f) path = (resolve root path).map (JsonTree.mapMark f) := by
  rw [resolve, resolve, resolveValue_mapMark]
  cases resolveValue path root path with
  | error failure => rfl
  | ok node =>
    simp only [Except.map, except_bind_ok, isObj_mapMark]
    split <;> rfl

theorem arrayTarget_mapMark (root : JsonTree α) (path : Path) :
    arrayTarget (root.mapMark f) path = (arrayTarget root path).map (JsonTree.mapMark f) := by
  rw [arrayTarget, arrayTarget]
  split
  · rfl
  · exact resolve_mapMark f root path

theorem assertParentKey_mapMark (parent : JsonTree α) (key : Seg) :
    assertParentKey (parent.mapMark f) key = assertParentKey parent key := by
  cases parent <;> cases key <;> simp [assertParentKey]

theorem writeProperty_mapMark (parent : JsonTree α) (key : Seg) (value : JsonTree α) :
    writeProperty (parent.mapMark f) key (value.mapMark f) =
      (writeProperty parent key value).map (JsonTree.mapMark f) := by
  rw [writeProperty, writeProperty, defineProperty_mapMark]
  cases parent.defineProperty key value <;> rfl

/-- The rewriting of a string property that `a` and `t` share. -/
theorem rewriteText_mapMark (parent : JsonTree α) (key : Seg)
    (rewrite : JsString → JsString) (failure : Failure) :
    (match (parent.mapMark f).child key with
      | some (.str current) =>
        writeProperty (parent.mapMark f) key (.str (rewrite current))
      | _ => .error failure) =
    (match parent.child key with
      | some (.str current) => writeProperty parent key (.str (rewrite current))
      | _ => .error failure).map (JsonTree.mapMark f) := by
  rw [child_mapMark]
  cases parent.child key with
  | none => rfl
  | some current =>
    cases current with
    | str text => exact writeProperty_mapMark f parent key (.str _)
    | null | bool | num | arr | obj => simp [Except.map]

theorem editParent_mapMark (op : Op α) (key : Seg) (parent : JsonTree α) :
    editParent (op.mapMark f) key (parent.mapMark f) =
      (editParent op key parent).map (JsonTree.mapMark f) := by
  rw [editParent.eq_def, editParent.eq_def, assertParentKey_mapMark]
  cases assertParentKey parent key with
  | error failure => rfl
  | ok accepted =>
    cases op with
    | r value | p path index remove items | m path permutation => rfl
    | s path value => exact writeProperty_mapMark f parent key value
    | a path text =>
      exact rewriteText_mapMark f parent key (· ++ text) _
    | t path count =>
      exact rewriteText_mapMark f parent key (·.drop count) _
    | d path =>
      cases parent with
      | null | bool | num | str => rfl
      | arr mark items =>
        cases key with
        | key name => rfl
        | index at_ =>
          simp only [Op.mapMark, mapMark_arr, length_map]
          split
          · rfl
          · simp [Except.map, splice_map]
      | obj mark fields =>
        simp [Op.mapMark, Except.map, mapValues_erase]

theorem editArray_mapMark (op : Op α) (target : JsonTree α) :
    editArray (op.mapMark f) (target.mapMark f) =
      (editArray op target).map (JsonTree.mapMark f) := by
  cases target with
  | null | bool | num | str | obj => cases op <;> simp [editArray, Op.mapMark, Op.path, Except.map]
  | arr mark elements =>
    cases op with
    | r value | s path value | d path | a path text | t path count =>
      simp [editArray, Op.mapMark, Op.path, Except.map]
    | p path index remove items =>
      simp [editArray, Op.mapMark, Except.map, spliceOp_eq]
    | m path permutation =>
      simp only [editArray, Op.mapMark, mapMark_arr, length_map, permuteOp_map]
      split
      · rfl
      · cases permuteOp elements permutation <;> simp [Except.map]

@[simp]
theorem Op.path_mapMark (op : Op α) : (op.mapMark f).path = op.path := by
  cases op <;> rfl

@[simp]
theorem Op.isLeaf_mapMark (op : Op α) : (op.mapMark f).isLeaf = op.isLeaf := by
  cases op <;> rfl

@[simp]
theorem Op.isArray_mapMark (op : Op α) : (op.mapMark f).isArray = op.isArray := by
  cases op <;> rfl

theorem valid_mapMark (op : Op α) : (op.mapMark f).Valid ↔ op.Valid := by
  rw [Op.Valid, Op.Valid, assertValidOp_mapMark]

/-- The applier does not look at marks. -/
theorem applyOp_mapMark (root : JsonTree α) (op : Op α) :
    applyOp (root.mapMark f) (op.mapMark f) = (applyOp root op).map (JsonTree.mapMark f) := by
  by_cases hvalid : op.Valid
  · have hvalid' := (valid_mapMark f op).mpr hvalid
    rcases op.isLeaf_or_isArray_or_isReplace with hleaf | harray | hreplace
    · have hpath :=
        (dropLast_append_getLast (hvalid.path_ne_nil hleaf)).symm
      rw [applyOp_leaf hleaf hvalid hpath, applyOp_leaf ((op.isLeaf_mapMark f).trans hleaf) hvalid'
          ((op.path_mapMark f).trans hpath), resolve_mapMark]
      cases resolve root op.path.dropLast with
      | error failure => rfl
      | ok parent =>
        simp only [Except.map, except_bind_ok, editParent_mapMark]
        cases editParent op _ parent with
        | error failure => rfl
        | ok edited =>
          simp only [except_bind_ok, replaceAt_mapMark]
    · rw [applyOp_array harray hvalid, applyOp_array ((op.isArray_mapMark f).trans harray) hvalid',
        arrayTarget_mapMark, Op.path_mapMark]
      cases arrayTarget root op.path with
      | error failure => rfl
      | ok target =>
        simp only [Except.map, except_bind_ok, editArray_mapMark]
        cases editArray op target with
        | error failure => rfl
        | ok edited =>
          simp only [except_bind_ok, replaceAt_mapMark]
    cases op with
    | r value => rfl
    | s | d | a | t | p | m => simp [isReplace] at hreplace
  rw [applyOp.eq_def, applyOp.eq_def, assertValidOp_mapMark]
  cases haccepted : assertValidOp op with
  | error failure => rfl
  | ok accepted => exact absurd haccepted hvalid

/-! ### Effects at a path -/

theorem hasReserved_append :
    Path.hasReserved (path ++ rest) = (Path.hasReserved path || Path.hasReserved rest) :=
  any_append

theorem valid_of_leaf (hleaf : op.isLeaf = true)
    (hne : op.path ≠ []) (hsafe : Path.hasReserved op.path = false) : op.Valid := by
  have hpath := (assertPathArg_eq_ok_iff op.path true).mpr
    ⟨fun _ => hne, hsafe⟩
  cases op with
  | r | p | m => simp [Op.isLeaf] at hleaf
  | s | d | a | t => exact hpath

/-- A leaf operation edits the container at the front of its path. -/
theorem applyOp_editParent (hleaf : op.isLeaf = true) {key : Seg} (hpath : op.path = front ++ [key])
    (hsafe : Path.hasReserved (front ++ [key]) = false)
    (hget : root.getAt front = some parent) (hobj : parent.isObj = true)
    (hedit : editParent op key parent = .ok edited) :
    applyOp root op = .ok (root.replaceAt front edited) := by
  rw [applyOp_leaf_eq_ok_iff root hleaf]
  refine ⟨valid_of_leaf hleaf (by simp [hpath]) (hpath ▸ hsafe), ?_⟩
  exact ⟨front, key, parent, edited, hpath, hget, hobj, hedit, rfl⟩

variable {value : JsonTree α}

theorem isObj_of_defineProperty {node value result : JsonTree α} {seg : Seg}
    (hdefine : node.defineProperty seg value = some result) : node.isObj = true := by
  rcases defineProperty_cases hdefine with ⟨mark, fields, rfl, -⟩ |
    ⟨mark, items, index, rfl, -⟩ <;> rfl

theorem applyOp_s_define {key : Seg} (hsafe : Path.hasReserved (front ++ [key]) = false)
    (hget : root.getAt front = some parent) (hkey : assertParentKey parent key = .ok ())
    (hdefine : parent.defineProperty key value = some edited) :
    applyOp root (.s (front ++ [key]) value) = .ok (root.replaceAt front edited) := by
  have hobj := isObj_of_defineProperty hdefine
  refine applyOp_editParent rfl rfl hsafe hget hobj ?_
  rw [editParent.eq_def, hkey, except_bind_ok]
  simp only [writeProperty, hdefine]

/-- A segment that names a child may be written. -/
theorem assertParentKey_of_child {next : JsonTree α} {key : Seg}
    (hchild : parent.child key = some next) : assertParentKey parent key = .ok () := by
  obtain ⟨mark, items, at_, rfl, rfl, hitem⟩ | ⟨_, _, rfl, -⟩ := JsonTree.child_cases hchild
  · have hlt := (List.getElem?_eq_some_iff.mp hitem).1
    rw [assertParentKey, if_neg (by omega)]
  · rfl

/-- The parent of an existing node, and the node as its child. -/
theorem exists_parent {node : JsonTree α} {path : Path} (hne : path ≠ [])
    (hget : root.getAt path = some node) :
    ∃ front key parent, path = front ++ [key] ∧
      root.getAt front = some parent ∧ parent.child key = some node := by
  obtain ⟨front, key, rfl⟩ : ∃ front key, path = front ++ [key] :=
    ⟨_, _, (dropLast_append_getLast hne).symm⟩
  rw [getAt_append, bind_eq_some_iff] at hget
  obtain ⟨parent, hparent, hchild⟩ := hget
  exact ⟨front, key, parent, rfl, hparent, by simpa using hchild⟩

/-- Overwriting a child through its parent is replacing at its path. -/
theorem replaceAt_concat {node : JsonTree α} {key : Seg} (hparent : root.getAt front = some parent)
    (hchild : parent.child key = some node) (value : JsonTree α) :
    root.replaceAt (front ++ [key]) value = root.replaceAt front (parent.setChild key value) := by
  rw [replaceAt_append hparent, replaceAt_cons hchild, replaceAt_nil]

theorem applyOp_s_overwrite {node : JsonTree α} {path : Path}
    (hne : path ≠ []) (hsafe : Path.hasReserved path = false) (hget : root.getAt path = some node) :
    applyOp root (.s path value) = .ok (root.replaceAt path value) := by
  obtain ⟨front, key, parent, rfl, hparent, hchild⟩ := exists_parent hne hget
  rw [replaceAt_concat hparent hchild]
  exact applyOp_s_define hsafe hparent (assertParentKey_of_child hchild)
    (defineProperty_eq_setChild hchild value)

/-- `a` and `t` rewrite the string at their path. -/
theorem applyOp_text {path : Path} {current : JsString}
    (hne : path ≠ []) (hsafe : Path.hasReserved path = false)
    (hget : root.getAt path = some (.str current)) :
    (∀ text, applyOp root (.a path text) = .ok (root.replaceAt path (.str (current ++ text)))) ∧
    ∀ count, applyOp root (.t path count) =
      .ok (root.replaceAt path (.str (current.drop count))) := by
  obtain ⟨front, key, parent, rfl, hparent, hchild⟩ := exists_parent hne hget
  have hkey := assertParentKey_of_child hchild
  have hobj := isObj_of_child hchild
  have hwrite : ∀ value : JsonTree α, writeProperty parent key value =
      .ok (parent.setChild key value) := by
    intro value
    rw [writeProperty, defineProperty_eq_setChild hchild]
  constructor
  · intro text
    rw [replaceAt_concat hparent hchild]
    refine applyOp_editParent rfl rfl hsafe hparent hobj ?_
    rw [editParent.eq_def, hkey, except_bind_ok]
    simp only [hchild, hwrite]
  intro count
  rw [replaceAt_concat hparent hchild]
  refine applyOp_editParent rfl rfl hsafe hparent hobj ?_
  rw [editParent.eq_def, hkey, except_bind_ok]
  simp only [hchild, hwrite]

variable {mark : α}

theorem applyOp_d_field {path : Path} {fields : List (JsString × JsonTree α)} {key : JsString}
    (hsafe : Path.hasReserved (path ++ [Seg.key key]) = false)
    (hget : root.getAt path = some (.obj mark fields)) :
    applyOp root (.d (path ++ [Seg.key key])) =
      .ok (root.replaceAt path (.obj mark (erase key fields))) := by
  refine applyOp_editParent rfl rfl hsafe hget rfl ?_
  rw [editParent.eq_def]
  rfl

variable {items : List (JsonTree α)}

theorem applyOp_p {path : Path} {front removed back : List (JsonTree α)}
    (hsafe : Path.hasReserved path = false)
    (hget : root.getAt path = some (.arr mark (front ++ removed ++ back))) :
    applyOp root (.p path front.length removed.length items) =
      .ok (root.replaceAt path (.arr mark (front ++ items ++ back))) := by
  have htake : (front ++ removed ++ back).take front.length = front := by
    rw [append_assoc, take_left' rfl]
  have hdrop : (front ++ removed ++ back).drop
      (front.length + removed.length) = back := by
    rw [← length_append, drop_left' rfl]
  rw [applyOp_array_eq_ok_iff root rfl]
  refine ⟨(assertPathArg_eq_ok_iff path false).mpr ⟨by simp, hsafe⟩, _, _, hget,
    ?_, rfl⟩
  rw [editArray, spliceOp_eq, htake, hdrop]

theorem applyOp_m {path : Path}
    {permuted : List (JsonTree α)} {order : List Nat}
    (hsafe : Path.hasReserved path = false)
    (hget : root.getAt path = some (.arr mark items))
    (hlength : order.length = items.length) (hnodup : order.Nodup)
    (hpermuted : List.Forall₂ (fun index item => items[index]? = some item)
      order permuted) :
    applyOp root (.m path order) =
      .ok (root.replaceAt path (.arr mark permuted)) := by
  have hrange : ∀ index ∈ order, index < order.length := by
    intro index hindex
    obtain ⟨i, hi, rfl⟩ := mem_iff_getElem.mp hindex
    have hitem := (forall₂_iff_get.mp hpermuted).2 i hi
      (hpermuted.length_eq ▸ hi)
    rw [hlength]
    exact (List.getElem?_eq_some_iff.mp hitem).1
  have hpermute : permuteOp items order = some permuted := by
    clear hlength hnodup hrange
    unfold permuteOp
    induction hpermuted with
    | nil => rfl
    | cons hitem _ ih => rw [mapM_cons, hitem, ih]; rfl
  rw [applyOp_array_eq_ok_iff root rfl]
  refine ⟨(valid_m_iff path order).mpr ⟨hsafe, hrange, hnodup⟩, _, _, hget, ?_, rfl⟩
  rw [editArray, if_neg (by simp [hlength]), hpermute]

theorem applyOps_singleton (root : JsonTree α) (op : Op α) :
    applyOps root [op] = applyOp root op := by
  rw [applyOps, foldlM_cons]
  cases applyOp root op <;> rfl

theorem applyOps_append {middle : JsonTree α} {front : List (Op α)}
    (hfront : applyOps root front = .ok middle) (back : List (Op α)) :
    applyOps root (front ++ back) = applyOps middle back := by
  rw [applyOps, foldlM_append]
  change (applyOps root front >>= _) = _
  rw [hfront]
  rfl

end Delta

end Hummin
