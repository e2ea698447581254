/-
The trusted applier: operations the program produced itself, applied without
validation.  Its splice moves the tail with `copyWithin` and changes `length`,
so that for a moment the array may have holes.
-/
import Hummin.DeltaImmutable

namespace Hummin

open List Option JsonTree

variable {α V : Type}

/-! ### Arrays with holes -/

/-- The slots of an array; `none` is a hole. -/
abbrev Slots (V : Type) := List (Option V)

namespace Slots

/-- Assigning `length`. -/
def setLength (slots : Slots V) (length : Nat) : Slots V :=
  slots.take length ++ List.replicate (length - slots.length) none

/-- `Array.prototype.copyWithin` with natural arguments. -/
def copyWithin (slots : Slots V) (target start end_ : Nat) : Slots V :=
  let to_ := min target slots.length
  let from_ := min start slots.length
  let count := min (min end_ slots.length - from_) (slots.length - to_)
  slots.take to_ ++ (slots.drop from_).take count ++ slots.drop (to_ + count)

/-- Defining an element; past the end it leaves holes. -/
def define (slots : Slots V) (at_ : Nat) (value : V) : Slots V :=
  if at_ < slots.length then slots.set at_ (some value)
  else slots ++ List.replicate (at_ - slots.length) none ++ [some value]

/-- The loop that defines the inserted items one by one. -/
def fill : Slots V → Nat → List V → Slots V
  | slots, _, [] => slots
  | slots, at_, item :: rest => fill (slots.define at_ item) (at_ + 1) rest

/-- Overwriting inside the array, slot by slot. -/
theorem fill_eq (slots : Slots V) (at_ : Nat) (items : List V)
    (hfits : at_ + items.length ≤ slots.length) :
    fill slots at_ items = slots.take at_ ++ items.map some ++ slots.drop (at_ + items.length) := by
  induction items generalizing slots at_ with
  | nil => simp [fill]
  | cons item rest ih =>
    rw [length_cons] at hfits
    have hlt : at_ < slots.length := by omega
    rw [fill, define, if_pos hlt, ih _ _ (by rw [length_set]; omega),
      take_succ_eq_append_getElem (by rw [length_set]; exact hlt),
      getElem_set_self, take_set_of_le le_rfl,
      drop_set_of_lt (by omega), length_cons, Nat.add_right_comm,
      Nat.add_assoc at_]
    simp

theorem copyWithin_eq {slots : Slots V} {target start end_ : Nat}
    (hstart : start ≤ end_) (hend : end_ ≤ slots.length)
    (hfits : target + (end_ - start) ≤ slots.length) :
    slots.copyWithin target start end_ =
      slots.take target ++ (slots.drop start).take (end_ - start) ++
        slots.drop (target + (end_ - start)) := by
  have htarget : min target slots.length = target := min_eq_left (by omega)
  have hfrom : min start slots.length = start := min_eq_left (by omega)
  have hfinal : min end_ slots.length = end_ := min_eq_left hend
  have hcount : min (end_ - start) (slots.length - target) = end_ - start :=
    min_eq_left (by omega)
  simp only [copyWithin, htarget, hfrom, hfinal, hcount]

end Slots

namespace Delta

/-- `spliceTrusted`; `notJson` if a hole remains. -/
def spliceTrusted (target : List V) (start remove : Nat) (items : List V) :
    Except Failure (List V) := do
  let oldLength := target.length
  let slots : Slots V := target.map some
  let moved ←
    if remove < items.length then
      .ok ((slots.setLength (oldLength + (items.length - remove))).copyWithin
        (start + items.length) (start + remove) oldLength)
    else if items.length < remove then
      let shifted := slots.copyWithin (start + items.length) (start + remove)
        oldLength
      if oldLength < remove - items.length then
        .error (.rangeError "Invalid array length")
      else .ok (shifted.setLength (oldLength - (remove - items.length)))
    else .ok slots
  match (moved.fill start items).mapM id with
  | some elements => .ok elements
  | none => .error .notJson

/-- `permuteTrusted`. -/
def permuteTrusted (target : List V) (permutation : List Nat) :
    Except Failure (List V) :=
  if target.length ≠ permutation.length then
    .error (.typeError "Trusted permutation length mismatch")
  else match permuteOp target permutation with
    | some elements => .ok elements
    | none => .error .notJson

/-- An index spelled as a name is that index on an array. -/
def arraySeg : JsonTree α → Seg → Seg
  | .arr _ _, .key name =>
    match arrayIndex name with
    | some at_ => .index at_
    | none => .key name
  | _, seg => seg

/-- `read`: what it finds outside the own properties is neither a container nor
a string. -/
def read (target : JsonTree α) (key : Seg) : Option (JsonTree α) :=
  target.child (arraySeg target key)

def defineData (target : JsonTree α) (key : Seg) (value : JsonTree α) :
    Except Failure (JsonTree α) :=
  writeProperty target (arraySeg target key) value

/-- The walk of `copyPath`: the copied node and the copied target below it. -/
def copyPathWalk : JsonTree Bool → Path →
    Except Failure (JsonTree Bool × JsonTree Bool)
  | node, [] => .ok (node.own, node.own)
  | node, seg :: rest =>
    match read node seg with
    | none =>
      .error (.typeError "Trusted operation path is not a container")
    | some child =>
      if ¬ child.isObj then
        .error (.typeError "Trusted operation path is not a container")
      else do
        let copied ← copyPathWalk child rest
        let node ← defineData node.own seg copied.1
        .ok (node, copied.2)

def copyPath (root : JsonTree Bool) (path : Path) (length : Nat) :
    Except Failure (JsonTree Bool × JsonTree Bool) :=
  if ¬ root.isObj then
    .error (.typeError "Trusted operation root is not a container")
  else copyPathWalk root (path.take length)

/-- The switch over `s`, `d`, `a` and `t` on the copied parent. -/
def editTrusted (op : Op α) (key : Seg) (target : JsonTree α) :
    Except Failure (JsonTree α) :=
  match op with
  | .s _ value => defineData target key value
  | .d _ =>
    match target, key with
    | .arr mark items, .index at_ => do
        let items ← spliceTrusted items at_ 1 []
        .ok (.arr mark items)
    | .arr _ _, .key _ =>
      .error (.typeError "Trusted array deletion key is not numeric")
    | .obj mark fields, key =>
      .ok (.obj mark (PropertyList.erase key.text fields))
    | target, _ => .ok target
  | .a _ text =>
    match read target key with
    | some (.str current) => defineData target key (.str (current ++ text))
    | _ => .error (.typeError "Trusted append target is not a string")
  | .t _ count =>
    match read target key with
    | some (.str current) =>
      defineData target key (.str (current.drop count))
    | _ => .error (.typeError "Trusted truncate target is not a string")
  | _ => .ok target

/-- `p` and `m` on the copied target. -/
def editArrayTrusted (op : Op α) (target : JsonTree α) :
    Except Failure (JsonTree α) :=
  match op, target with
  | .p _ index remove items, .arr mark elements => do
      let elements ← spliceTrusted elements index remove items
      .ok (.arr mark elements)
  | .m _ permutation, .arr mark elements => do
      let elements ← permuteTrusted elements permutation
      .ok (.arr mark elements)
  | _, _ => .error (.typeError "Trusted array operation target is not an array")

/-- One round of `applyImmutableTrusted`. -/
def applyTrustedOp (root : JsonTree Bool) (op : Op Bool) :
    Except Failure (JsonTree Bool) :=
  match op with
  | .r value => .ok value
  | .p path _ _ _ | .m path _ => do
      let copied ← copyPath root path path.length
      let target ← editArrayTrusted op copied.2
      .ok (copied.1.replaceAt path target)
  | .s path _ | .d path | .a path _ | .t path _ => do
      let copied ← copyPath root path (path.length - 1)
      match path.getLast? with
      -- the type of these verbs has no empty path
      | none => .error (.typeError "path is empty")
      | some key => do
          let target ← editTrusted op key copied.2
          .ok (copied.1.replaceAt path.dropLast target)

def applyImmutableTrusted (target : JsonValue) (operations : List (Op Unit)) :
    Except Failure JsonValue := do
  let root ← (operations.map Op.foreign).foldlM applyTrustedOp target.foreign
  .ok root.erase

/-! ### The trusted splice -/

theorem mapM_id_map_some (items : List V) : (items.map some).mapM id = some items := by
  induction items with
  | nil => rfl
  | cons item rest ih => simp [ih]

/-- In range, moving the tail and defining the items is a splice. -/
theorem spliceTrusted_eq {target : List V} {start remove : Nat}
    (hfits : start + remove ≤ target.length) (items : List V) :
    spliceTrusted target start remove items =
      .ok (target.take start ++ items ++ target.drop (start + remove)) := by
  have hfill : ∀ moved : Slots V,
      moved.take start = (target.take start).map some →
      moved.drop (start + items.length) =
        (target.drop (start + remove)).map some →
      start + items.length ≤ moved.length →
      (moved.fill start items).mapM id =
        some (target.take start ++ items ++ target.drop (start + remove)) := by
    intro moved hfront hback hlength
    rw [Slots.fill_eq moved start items hlength, hfront, hback, ← map_append,
      ← map_append, mapM_id_map_some]
  have hmoved : ∀ slots : Slots V,
      slots.take start = (target.take start).map some →
      start + items.length ≤ slots.length →
      (Slots.fill (slots.take (start + items.length) ++
          (target.drop (start + remove)).map some) start items).mapM id =
        some (target.take start ++ items ++ target.drop (start + remove)) := by
    intro slots hfront hlength
    have htake : (slots.take (start + items.length)).length =
        start + items.length := by
      rw [length_take, min_eq_left hlength]
    apply hfill
    · rw [take_append_of_le_length (by omega), take_take,
        min_eq_left (by omega), hfront]
    · rw [drop_left' htake]
    rw [length_append]
    omega
  rw [spliceTrusted]
  simp only
  rcases Nat.lt_trichotomy remove items.length with hgrow | hsame | hshrink
  · -- the array grows: holes at the end, then the tail moves right
    have hgrown : Slots.setLength (target.map some)
        (target.length + (items.length - remove)) =
          target.map some ++ replicate (items.length - remove) none := by
      rw [Slots.setLength, length_map,
        take_of_length_le (by rw [length_map]; omega),
        Nat.add_sub_cancel_left]
    have hlength : (target.map some ++ replicate (items.length - remove) (none : Option V)).length =
          target.length + (items.length - remove) := by
      simp
    have htail : ((target.map some ++ replicate (items.length - remove)
        (none : Option V)).drop (start + remove)).take
          (target.length - (start + remove)) =
            (target.drop (start + remove)).map some := by
      rw [drop_append_of_le_length (by rw [length_map]; omega),
        take_left' (by rw [length_drop, length_map]),
        map_drop]
    have hend : (target.map some ++ replicate (items.length - remove)
        (none : Option V)).drop (start + items.length + (target.length - (start + remove))) = [] :=
      drop_eq_nil_of_le (by omega)
    rw [if_pos hgrow, except_bind_ok, hgrown,
      Slots.copyWithin_eq (by omega) (by omega) (by omega), htail, hend,
      append_nil, hmoved _ _ (by omega)]
    rw [take_append_of_le_length (by rw [length_map]; omega),
      map_take]
  · rw [if_neg (by omega), if_neg (by omega), except_bind_ok, hfill]
    · rw [map_take]
    · rw [← hsame, map_drop]
    rw [length_map]
    omega
  -- the tail moves left, then the array is cut
  have hlength : (target.map some).length = target.length := length_map _
  have hcut : ((target.map some).take (start + items.length) ++
      (target.map some).drop (start + remove)).length =
        target.length - (remove - items.length) := by
    rw [length_append, length_take, length_drop, hlength]
    omega
  have htail : ((target.map some).drop (start + remove)).take
      (target.length - (start + remove)) =
        (target.map some).drop (start + remove) :=
    take_of_length_le (by rw [length_drop, hlength])
  rw [if_neg (by omega), if_pos hshrink, if_neg (by omega), except_bind_ok,
    Slots.copyWithin_eq (by omega) (by omega) (by omega), htail,
    Slots.setLength, take_left' hcut, Nat.sub_eq_zero_of_le
      (by rw [length_append, hcut]; omega), replicate_zero,
    append_nil, ← map_drop, hmoved _ _ (by omega)]
  rw [map_take]

/-! ### One operation -/

theorem arraySeg_of_child {node next : JsonTree α} {seg : Seg}
    (hchild : node.child seg = some next) : arraySeg node seg = seg := by
  obtain ⟨_, _, _, rfl, rfl, -⟩ | ⟨_, _, rfl, -⟩ := JsonTree.child_cases hchild <;> rfl

theorem arraySeg_own (node : JsonTree Bool) (seg : Seg) :
    arraySeg node.own seg = arraySeg node seg := by
  cases node <;> cases seg <;> rfl

theorem arraySeg_of_assertParentKey {parent : JsonTree α} {key : Seg}
    (hkey : assertParentKey parent key = .ok ()) : arraySeg parent key = key := by
  cases parent with
  | null | bool | num | str | obj => rfl
  | arr mark items =>
    cases key with
    | key name => simp [assertParentKey] at hkey
    | index at_ => rfl

/-- `copyPath` reaches every container; what it copies keeps its value. -/
theorem copyPathWalk_of_getAt {node target : JsonTree Bool} {path : Path}
    (hget : node.getAt path = some target) (hobj : target.isObj = true) :
    ∃ copied, copyPathWalk node path = .ok (copied, target.own) ∧
      copied.erase = node.erase ∧ copied.getAt path = some target.own := by
  induction path generalizing node with
  | nil =>
    obtain rfl := some.inj hget
    exact ⟨node.own, rfl, erase_own node, rfl⟩
  | cons seg rest ih =>
    rw [getAt_cons, bind_eq_some_iff] at hget
    obtain ⟨next, hchild, hrest⟩ := hget
    obtain ⟨copied, hcopied, hvalue, hbelow⟩ := ih hrest
    have hnext : next.isObj = true := by
      cases rest with
      | nil =>
        cases hrest
        exact hobj
      | cons step tail =>
        rw [getAt_cons, bind_eq_some_iff] at hrest
        obtain ⟨below, hstep, -⟩ := hrest
        exact isObj_of_child hstep
    have hseg := arraySeg_of_child hchild
    have hown : node.own.child seg = some next := by
      rw [child_own, hchild]
    refine ⟨node.own.setChild seg copied, ?_, ?_, ?_⟩
    · rw [copyPathWalk, read, hseg, hchild]
      simp only [hnext, not_true_eq_false, if_false, hcopied, except_bind_ok]
      rw [defineData, arraySeg_own, hseg, writeProperty_of_child hown]
      rfl
    · rw [erase_setChild, erase_own, hvalue]
      exact setChild_self (child_erase hchild)
    rw [getAt_cons, child_setChild hown]
    exact hbelow

theorem isObj_of_getAt {node target : JsonTree α} {path : Path}
    (hget : node.getAt path = some target) (hobj : target.isObj = true) : node.isObj = true := by
  cases path with
  | nil =>
    cases hget
    exact hobj
  | cons seg rest =>
    rw [getAt_cons, bind_eq_some_iff] at hget
    obtain ⟨next, hchild, -⟩ := hget
    exact isObj_of_child hchild

/-- Where the checked edit of a property succeeds, the trusted one does the
same. -/
theorem editTrusted_of_editParent {op : Op α} {key : Seg}
    {parent edited : JsonTree α} (hleaf : op.isLeaf = true)
    (hedit : editParent op key parent = .ok edited) : editTrusted op key parent = .ok edited := by
  rw [editParent.eq_def, except_bind_eq_ok_iff] at hedit
  obtain ⟨accepted, hkey, hedit⟩ := hedit
  have hseg := arraySeg_of_assertParentKey hkey
  cases op with
  | r | p | m => simp [Op.isLeaf] at hleaf
  | s path value =>
    rw [editTrusted, defineData, hseg]
    exact hedit
  | a path text | t path count =>
    rw [editTrusted, read, hseg]
    simp only at hedit
    split at hedit
    next current hcurrent =>
      simpa only [hcurrent, defineData, hseg] using hedit
    · simp at hedit
  | d path =>
    cases parent with
    | null | bool | num | str | obj => exact hedit
    | arr mark items =>
      cases key with
      | key name => simp [assertParentKey] at hkey
      | index at_ =>
        simp only at hedit
        split at hedit
        · simp at hedit
        rename_i hlt
        cases hedit
        rw [editTrusted, spliceTrusted_eq (by omega), splice_eq]
        rfl

/-- The splice stays within the array it finds. -/
def Op.SpliceFits (root : JsonTree α) : Op α → Prop
  | .p path index remove _ => ∀ mark elements,
      root.getAt path = some (.arr mark elements) →
        index + remove ≤ elements.length
  | _ => True

/-- Every splice of the batch is within its array when its turn comes. -/
def SplicesFit : JsonValue → List (Op Unit) → Prop
  | _, [] => True
  | root, op :: rest =>
    op.SpliceFits root ∧
      ∀ next, applyOp root op = .ok next → SplicesFit next rest

theorem editArrayTrusted_of_editArray {op : Op α} {target edited : JsonTree α}
    (hfits : ∀ path index remove items mark elements,
      op = .p path index remove items → target = .arr mark elements →
        index + remove ≤ elements.length) (hedit : editArray op target = .ok edited) :
    editArrayTrusted op target = .ok edited := by
  cases target with
  | null | bool | num | str | obj => cases op <;> simp [editArray] at hedit
  | arr mark elements =>
    cases op with
    | r | s | d | a | t => simp [editArray] at hedit
    | p path index remove items =>
      cases hedit
      rw [editArrayTrusted, spliceTrusted_eq (hfits _ _ _ _ _ _ rfl rfl), spliceOp_eq]
      rfl
    | m path permutation =>
      rw [editArray] at hedit
      rw [editArrayTrusted, permuteTrusted]
      split at hedit
      · simp at hedit
      rename_i hlength
      rw [if_neg hlength]
      split at hedit
      next permuted hpermuted =>
        cases hedit
        rw [hpermuted]
        rfl
      · simp at hedit

variable {root : JsonTree Bool} {op : Op Bool} {key : Seg}

/-- An edit that succeeds on a container succeeds on its copy. -/
theorem editParent_own {parent edited : JsonTree Bool}
    (hedit : editParent op key parent = .ok edited) :
    ∃ edited', editParent op key parent.own = .ok edited' ∧ edited'.erase = edited.erase := by
  have hplain := editParent_mapMark (fun _ => ()) op key parent
  have hown := editParent_mapMark (fun _ => ()) op key parent.own
  change editParent _ _ parent.own.erase = _ at hown
  change editParent _ _ parent.erase = _ at hplain
  rw [erase_own, hplain, hedit] at hown
  cases hcopy : editParent op key parent.own with
  | error failure => simp [hcopy, Except.map] at hown
  | ok edited' =>
    rw [hcopy] at hown
    exact ⟨edited', rfl, (Except.ok.inj hown).symm⟩

theorem editArray_own {target edited : JsonTree Bool} (hedit : editArray op target = .ok edited) :
    ∃ edited', editArray op target.own = .ok edited' ∧ edited'.erase = edited.erase := by
  have hplain := editArray_mapMark (fun _ => ()) op target
  have hown := editArray_mapMark (fun _ => ()) op target.own
  change editArray _ target.own.erase = _ at hown
  change editArray _ target.erase = _ at hplain
  rw [erase_own, hplain, hedit] at hown
  cases hcopy : editArray op target.own with
  | error failure => simp [hcopy, Except.map] at hown
  | ok edited' =>
    rw [hcopy] at hown
    exact ⟨edited', rfl, (Except.ok.inj hown).symm⟩

/-- One trusted round does what one checked round does, splices in range. -/
theorem applyTrustedOp_of_applyOp {result : JsonTree Bool} {op : Op Bool}
    (hfits : op.SpliceFits root) (hok : applyOp root op = .ok result) :
    ∃ final, applyTrustedOp root op = .ok final ∧ final.erase = result.erase := by
  rcases op.isLeaf_or_isArray_or_isReplace with hleaf | harray | hreplace
  · obtain ⟨-, front, key, parent, edited, hpath, hget, hobj, hedit, rfl⟩ :=
      (applyOp_leaf_eq_ok_iff root hleaf result).mp hok
    obtain ⟨copied, hcopied, hvalue, -⟩ := copyPathWalk_of_getAt hget hobj
    obtain ⟨edited', hedit', herase⟩ := editParent_own hedit
    have htrusted := editTrusted_of_editParent hleaf hedit'
    refine ⟨copied.replaceAt front edited', ?_, ?_⟩
    · have hcopy : copyPath root (front ++ [key]) ((front ++ [key]).length - 1) =
          .ok (copied, parent.own) := by
        rw [copyPath, if_neg (by simp [isObj_of_getAt hget hobj]),
          length_append, length_singleton, Nat.add_sub_cancel,
          take_left', hcopied]
        rfl
      cases op with
      | r | p | m => simp [Op.isLeaf] at hleaf
      | s | d | a | t =>
        subst hpath
        simp only [applyTrustedOp, hcopy, except_bind_ok, htrusted,
          getLast?_concat, dropLast_concat]
    · rw [erase_replaceAt, erase_replaceAt, hvalue, herase]
  · obtain ⟨-, target, edited, hget, hedit, rfl⟩ :=
      (applyOp_array_eq_ok_iff root harray result).mp hok
    have hobj := isObj_of_editArray hedit
    obtain ⟨copied, hcopied, hvalue, -⟩ := copyPathWalk_of_getAt hget hobj
    obtain ⟨edited', hedit', herase⟩ := editArray_own hedit
    have htrusted : editArrayTrusted op target.own = .ok edited' := by
      refine editArrayTrusted_of_editArray ?_ hedit'
      rintro path index remove items mark elements rfl hown
      cases target with
      | null | bool | num | str | obj => simp [JsonTree.own] at hown
      | arr mark' elements' =>
        simp only [JsonTree.own, JsonTree.arr.injEq] at hown
        rw [← hown.2]
        exact hfits mark' elements' hget
    refine ⟨copied.replaceAt op.path edited', ?_, ?_⟩
    · have hcopy : copyPath root op.path op.path.length =
          .ok (copied, target.own) := by
        rw [copyPath, if_neg (by simp [isObj_of_getAt hget hobj]),
          take_length, hcopied]
      cases op with
      | r | s | d | a | t => simp [Op.isArray] at harray
      | p | m =>
        simp only [Op.path] at hcopy ⊢
        simp only [applyTrustedOp, hcopy, except_bind_ok, htrusted]
    · rw [erase_replaceAt, erase_replaceAt, hvalue, herase]
  · cases op with
    | r value =>
      obtain rfl := Except.ok.inj hok
      exact ⟨value, rfl, rfl⟩
    | s | d | a | t | p | m => simp [isReplace] at hreplace

/-! ### Whole batches -/

theorem spliceFits_foreign {op : Op Unit}
    (hfits : op.SpliceFits root.erase) : op.foreign.SpliceFits root := by
  cases op with
  | r | s | d | a | t | m => trivial
  | p path index remove items =>
    intro mark elements hget
    have herase : root.erase.getAt path =
        some (.arr () (elements.map JsonTree.erase)) := by
      rw [getAt_erase, hget, map_some]
      exact congrArg some (mapMark_arr _ mark elements)
    have hlength := hfits () _ herase
    rwa [length_map] at hlength

theorem foldlM_applyTrustedOp {ops : List (Op Unit)}
    {value : JsonValue} (hfits : SplicesFit root.erase ops)
    (hok : applyOps root.erase ops = .ok value) :
    ∃ final, (ops.map Op.foreign).foldlM applyTrustedOp root = .ok final ∧ final.erase = value := by
  induction ops generalizing root with
  | nil => exact ⟨root, rfl, Except.ok.inj hok⟩
  | cons op rest ih =>
    obtain ⟨hop, hrest⟩ := hfits
    rw [applyOps, foldlM_except_cons_eq_ok_iff] at hok
    obtain ⟨next, hnext, hok⟩ := hok
    have hmarked := hnext
    rw [← op.erase_foreign, applyOp_erase_eq_ok_iff] at hmarked
    obtain ⟨result, hresult, hvalue⟩ := hmarked
    obtain ⟨middle, hmiddle, herase⟩ :=
      applyTrustedOp_of_applyOp (spliceFits_foreign hop) hresult
    have hsame : middle.erase = next := herase.trans hvalue
    obtain ⟨final, hfinal, hend⟩ := ih (hsame ▸ hrest next hnext)
      (hsame ▸ hok)
    refine ⟨final, ?_, hend⟩
    rw [map_cons, foldlM_except_cons_eq_ok_iff]
    exact ⟨middle, hmiddle, hfinal⟩

/-- The three appliers agree: the immutable replay with the mutable applier on
every list of batches, the trusted applier with the immutable one wherever that
succeeds and the splices stay within their arrays. -/
theorem appliers_agree (target : JsonValue) :
    (∀ batches value, applyImmutableBatches target batches = .ok value ↔
      applyOps target batches.flatten = .ok value) ∧
    ∀ ops value, SplicesFit target ops →
      applyImmutable target ops = .ok value →
        applyImmutableTrusted target ops = .ok value := by
  refine ⟨applyImmutableBatches_eq_ok_iff target, ?_⟩
  intro ops value hfits hok
  rw [applyImmutable, applyImmutableBatches_eq_ok_iff] at hok
  have hflat : [ops].flatten = ops := by simp
  rw [hflat, ← erase_foreign target] at hok
  rw [← erase_foreign target] at hfits
  obtain ⟨final, hfinal, hvalue⟩ := foldlM_applyTrustedOp hfits hok
  rw [applyImmutableTrusted, hfinal, except_bind_ok, hvalue]

/-- A batch that grows, shrinks and permutes one array below an object. -/
theorem appliers_agree_editedList :
    let path : Path := [.key (js ['a'])]
    let target : JsonValue := .obj () [(js ['a'], .arr () [.null, .bool true])]
    let ops : List (Op Unit) :=
      [.p path 1 1 [.num 1, .num 2], .m path [2, 0, 1], .d (path ++ [Seg.index 0])]
    SplicesFit target ops ∧ applyImmutableTrusted target ops =
      .ok (.obj () [(js ['a'], .arr () [.null, .num 1])]) := by
  intro path target ops
  have hfits : SplicesFit target ops := by
    refine ⟨?_, fun next _ => ⟨trivial, fun next _ => ⟨trivial, fun _ _ =>
      trivial⟩⟩⟩
    intro mark elements hget
    have helements : elements = [.null, .bool true] := by
      simpa [target, path, JsonTree.child, PropertyList.get, Seg.text]
        using hget.symm
    rw [helements]
    decide
  refine ⟨hfits, (appliers_agree target).2 ops _ hfits ?_⟩
  decide

end Delta

end Hummin
