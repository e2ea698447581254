/-
Operations on equal values give equal values: key order does not matter to the applier.
-/
import Mathlib.Data.List.Forall2
import Hummin.DeltaDiffSound

namespace Hummin

open List Option PropertyList JsonTree

variable {α : Type}

namespace JsonTree

variable {left right next value other : JsonTree α} {seg : Seg}

variable {mark mark' : α}

variable {items items' : List (JsonTree α)}

theorem forall₂_of_sameValue
    (hsame : SameValue (.arr mark items) (.arr mark' items')) : List.Forall₂ SameValue items items' := by
  cases hsame with
  | arr hlength hitems =>
    rw [forall₂_iff_get]
    refine ⟨hlength, fun i hleft hright => hitems i _ _ ?_ ?_⟩
    · exact getElem?_eq_getElem hleft
    · exact getElem?_eq_getElem hright

theorem SameValue.isObj_eq (hsame : SameValue left right) : left.isObj = right.isObj := by
  cases hsame <;> rfl

theorem SameValue.child (hsame : SameValue left right) (hnext : left.child seg = some next) :
    ∃ found, right.child seg = some found ∧ SameValue next found := by
  cases hsame with
  | null | bool | num | str => cases hnext
  | @arr mark mark' items items' hlength hitems =>
    cases seg with
    | key name => cases hnext
    | index at_ =>
      have hlt := (List.getElem?_eq_some_iff.mp hnext).1
      have hfound : items'[at_]? = some (items'[at_]) := getElem?_eq_getElem (hlength ▸ hlt)
      exact ⟨_, hfound, hitems at_ next _ hnext hfound⟩
  | @obj mark mark' fields fields' hkeys hvalues =>
    have hget : get seg.text fields = some next := hnext
    have hsome := hkeys seg.text
    rw [hget] at hsome
    obtain ⟨found, hfound⟩ := isSome_iff_exists.mp hsome.symm
    exact ⟨found, hfound, hvalues seg.text next found hget hfound⟩

theorem SameValue.getAt {path : Path} (hsame : SameValue left right)
    (hnext : left.getAt path = some next) :
    ∃ found, right.getAt path = some found ∧ SameValue next found := by
  induction path generalizing left right with
  | nil =>
    cases hnext
    exact ⟨right, rfl, hsame⟩
  | cons seg rest ih =>
    rw [getAt_cons] at hnext
    obtain ⟨child, hchild, hrest⟩ := bind_eq_some_iff.mp hnext
    obtain ⟨found, hfound, hsameChild⟩ := hsame.child hchild
    obtain ⟨last, hlast, hsameLast⟩ := ih hsameChild hrest
    refine ⟨last, ?_, hsameLast⟩
    rw [getAt_cons, hfound]
    exact hlast

variable {fields fields' : List (JsString × JsonTree α)}

/-- Equal fields with one written stay equal. -/
theorem SameValue.put {key : JsString}
    (hsame : SameValue (.obj mark fields) (.obj mark' fields')) (hvalue : SameValue value other) :
    SameValue (.obj mark (put keyPrecedes key value fields))
      (.obj mark' (put keyPrecedes key other fields')) := by
  cases hsame with
  | obj hkeys hvalues =>
    refine .obj ?_ ?_
    · intro name
      rw [get_put, get_put]
      split
      · rfl
      · exact hkeys name
    intro name found found' hfound hfound'
    rw [get_put] at hfound hfound'
    split at hfound
    next hname =>
      rw [if_pos hname] at hfound'
      cases hfound
      cases hfound'
      exact hvalue
    next hname =>
      rw [if_neg hname] at hfound'
      exact hvalues name found found' hfound hfound'

theorem forall₂_set {at_ : Nat}
    (hitems : List.Forall₂ SameValue items items') (hvalue : SameValue value other) :
    List.Forall₂ SameValue (items.set at_ value) (items'.set at_ other) := by
  induction hitems generalizing at_ with
  | nil => exact .nil
  | cons hhead htail ih =>
    cases at_ with
    | zero => exact .cons hvalue htail
    | succ at_ => exact .cons hhead ih

theorem SameValue.setChild (hsame : SameValue left right) (hvalue : SameValue value other) :
    SameValue (left.setChild seg value) (right.setChild seg other) := by
  cases hleft : left with
  | arr mark items =>
    cases hright : right with
    | arr mark' items' =>
      rw [hleft, hright] at hsame
      cases seg with
      | key name => exact hsame
      | index at_ =>
        exact Delta.sameValue_arr_of_forall₂ (forall₂_set (forall₂_of_sameValue hsame) hvalue)
    | _ =>
      rw [hleft, hright] at hsame
      cases hsame
  | obj mark fields =>
    cases hright : right with
    | obj mark' fields' =>
      rw [hleft, hright] at hsame
      exact hsame.put hvalue
    | _ =>
      rw [hleft, hright] at hsame
      cases hsame
  | _ =>
    rw [hleft] at hsame
    cases hsame
    exact .refl _

theorem SameValue.replaceAt {path : Path} (hsame : SameValue left right)
    (hnext : left.getAt path = some next) (hvalue : SameValue value other) :
    SameValue (left.replaceAt path value) (right.replaceAt path other) := by
  induction path generalizing left right with
  | nil => exact hvalue
  | cons seg rest ih =>
    rw [getAt_cons] at hnext
    obtain ⟨child, hchild, hrest⟩ := bind_eq_some_iff.mp hnext
    obtain ⟨found, hfound, hsameChild⟩ := hsame.child hchild
    rw [replaceAt_cons hchild, replaceAt_cons hfound]
    exact hsame.setChild (ih hsameChild hrest)

theorem SameValue.defineProperty (hsame : SameValue left right) (hvalue : SameValue value other)
    (hdefine : left.defineProperty seg value = some next) :
    ∃ found, right.defineProperty seg other = some found ∧ SameValue next found := by
  cases hleft : left with
  | arr mark items =>
    cases hright : right with
    | arr mark' items' =>
      rw [hleft, hright] at hsame
      rw [hleft] at hdefine
      have hitems := forall₂_of_sameValue hsame
      have hlength := hitems.length_eq
      cases seg with
      | key name => cases hdefine
      | index at_ =>
        simp only [JsonTree.defineProperty] at hdefine ⊢
        rw [← hlength]
        split at hdefine
        next hin =>
          cases hdefine
          rw [if_pos hin]
          exact ⟨_, rfl, Delta.sameValue_arr_of_forall₂ (forall₂_set hitems hvalue)⟩
        rename_i hout
        split at hdefine
        next hend =>
          cases hdefine
          rw [if_neg hout, if_pos hend]
          refine ⟨_, rfl, Delta.sameValue_arr_of_forall₂ ?_⟩
          exact rel_append hitems (.cons hvalue .nil)
        · cases hdefine
    | _ =>
      rw [hleft, hright] at hsame
      cases hsame
  | obj mark fields =>
    cases hright : right with
    | obj mark' fields' =>
      rw [hleft, hright] at hsame
      rw [hleft] at hdefine
      cases hdefine
      exact ⟨_, rfl, hsame.put hvalue⟩
    | _ =>
      rw [hleft, hright] at hsame
      cases hsame
  | _ =>
    rw [hleft] at hdefine
    cases hdefine

/-- Equal fields with one taken away stay equal. -/
theorem SameValue.eraseField {key : JsString}
    (hsame : SameValue (.obj mark fields) (.obj mark' fields')) :
    SameValue (.obj mark (PropertyList.erase key fields)) (.obj mark' (PropertyList.erase key fields')) := by
  cases hsame with
  | obj hkeys hvalues =>
    refine .obj ?_ ?_
    · intro name
      rw [get_erase, get_erase]
      split
      · rfl
      · exact hkeys name
    intro name found found' hfound hfound'
    rw [get_erase] at hfound hfound'
    split at hfound
    · cases hfound
    next hname =>
      rw [if_neg hname] at hfound'
      exact hvalues name found found' hfound hfound'

end JsonTree

namespace Delta

variable {left right edited value : JsonTree α} {op : Op α} {key : Seg}

section

variable (hsame : JsonTree.SameValue left right)

include hsame

theorem assertParentKey_congr : assertParentKey left key = assertParentKey right key := by
  cases hsame with
  | null | bool | num | str | obj => cases key <;> rfl
  | arr hlength hitems =>
    cases key with
    | key name => rfl
    | index at_ => simp only [assertParentKey, hlength]

theorem writeProperty_congr {other written : JsonTree α} (hvalue : JsonTree.SameValue value other)
    (hwrite : writeProperty left key value = .ok written) :
    ∃ found, writeProperty right key other = .ok found ∧ JsonTree.SameValue written found := by
  rw [writeProperty] at hwrite ⊢
  cases hdefine : left.defineProperty key value with
  | none =>
    rw [hdefine] at hwrite
    cases hwrite
  | some node =>
    rw [hdefine] at hwrite
    cases hwrite
    obtain ⟨found, hfound, hsameFound⟩ := hsame.defineProperty hvalue hdefine
    rw [hfound]
    exact ⟨found, rfl, hsameFound⟩

/-- The text under a key is the same text. -/
theorem child_str_congr {text : JsString}
    (hchild : left.child key = some (.str text)) : right.child key = some (.str text) := by
  obtain ⟨found, hfound, hstr⟩ := hsame.child hchild
  cases hstr
  exact hfound

theorem rewriteText_congr {f : JsString → JsString} {failure : Failure}
    (hedit : (match left.child key with
      | some (.str current) => writeProperty left key (.str (f current))
      | _ => .error failure) = .ok edited) :
    ∃ found, (match right.child key with
      | some (.str current) => writeProperty right key (.str (f current))
      | _ => .error failure) = .ok found ∧ JsonTree.SameValue edited found := by
  cases hchild : left.child key with
  | none =>
    rw [hchild] at hedit
    cases hedit
  | some child =>
    cases child with
    | str text =>
      rw [hchild] at hedit
      rw [child_str_congr hsame hchild]
      exact writeProperty_congr hsame (.refl _) hedit
    | _ =>
      rw [hchild] at hedit
      cases hedit

end

variable {items items' : List (JsonTree α)}

theorem forall₂_splice {inserted : List (JsonTree α)}
    {start remove : Nat} (hitems : List.Forall₂ JsonTree.SameValue items items') :
    List.Forall₂ JsonTree.SameValue (splice items start remove inserted)
      (splice items' start remove inserted) := by
  rw [splice_eq, splice_eq]
  apply rel_append
  · apply rel_append
    · exact forall₂_take _ hitems
    · exact forall₂_same.mpr fun item _ => .refl item
  · exact forall₂_drop _ hitems

theorem editParent_congr (hsame : JsonTree.SameValue left right)
    (hedit : editParent op key left = .ok edited) :
    ∃ found, editParent op key right = .ok found ∧ JsonTree.SameValue edited found := by
  rw [editParent.eq_def, except_bind_eq_ok_iff] at hedit
  obtain ⟨accepted, haccepted, hedit⟩ := hedit
  rw [editParent.eq_def, ← assertParentKey_congr hsame, haccepted, except_bind_ok]
  cases op with
  | s path value => exact writeProperty_congr hsame (.refl _) hedit
  | a path text => exact rewriteText_congr hsame hedit
  | t path count => exact rewriteText_congr hsame hedit
  | d path =>
    cases hleft : left with
    | arr mark items =>
      cases hright : right with
      | arr mark' items' =>
        rw [hleft, hright] at hsame
        rw [hleft] at hedit
        have hitems := forall₂_of_sameValue hsame
        cases key with
        | key name =>
          cases hedit
          exact ⟨_, rfl, hsame⟩
        | index at_ =>
          simp only at hedit ⊢
          rw [← hitems.length_eq]
          split at hedit
          · cases hedit
          rename_i hin
          cases hedit
          rw [if_neg hin]
          exact ⟨_, rfl, sameValue_arr_of_forall₂ (forall₂_splice hitems)⟩
      | _ =>
        rw [hleft, hright] at hsame
        cases hsame
    | obj mark fields =>
      cases hright : right with
      | obj mark' fields' =>
        rw [hleft, hright] at hsame
        rw [hleft] at hedit
        cases hedit
        exact ⟨_, rfl, hsame.eraseField⟩
      | _ =>
        rw [hleft, hright] at hsame
        cases hsame
    | _ =>
      rw [hleft] at hsame hedit
      cases hedit
      cases hsame
      exact ⟨_, rfl, .refl _⟩
  | _ =>
    cases hedit
    exact ⟨_, rfl, hsame⟩

theorem permuteOp_congr {permuted : List (JsonTree α)} {permutation : List Nat}
    (hitems : List.Forall₂ JsonTree.SameValue items items')
    (hpermute : permuteOp items permutation = some permuted) :
    ∃ found, permuteOp items' permutation = some found ∧
      List.Forall₂ JsonTree.SameValue permuted found := by
  unfold permuteOp at hpermute ⊢
  induction permutation generalizing permuted with
  | nil =>
    cases hpermute
    exact ⟨[], rfl, .nil⟩
  | cons index rest ih =>
    rw [mapM_cons] at hpermute ⊢
    obtain ⟨item, hitem, hrest⟩ := bind_eq_some_iff.mp hpermute
    obtain ⟨others, hothers, hdone⟩ := bind_eq_some_iff.mp hrest
    cases hdone
    obtain ⟨found, hfound, hsame⟩ := ih hothers
    have hlt := (List.getElem?_eq_some_iff.mp hitem).1
    have hlt' : index < items'.length := hitems.length_eq ▸ hlt
    refine ⟨items'[index] :: found, ?_, .cons ?_ hsame⟩
    · rw [getElem?_eq_getElem hlt', hfound]
      rfl
    rw [← (List.getElem?_eq_some_iff.mp hitem).2]
    exact (forall₂_iff_get.mp hitems).2 index hlt hlt'

theorem editArray_congr (hsame : JsonTree.SameValue left right)
    (hedit : editArray op left = .ok edited) :
    ∃ found, editArray op right = .ok found ∧ JsonTree.SameValue edited found := by
  cases hleft : left with
  | arr mark items =>
    cases hright : right with
    | arr mark' items' =>
      rw [hleft, hright] at hsame
      rw [hleft] at hedit
      have hitems := forall₂_of_sameValue hsame
      cases op with
      | p path index remove inserted =>
        cases hedit
        refine ⟨_, rfl, sameValue_arr_of_forall₂ ?_⟩
        simp only [spliceOp_eq, ← splice_eq]
        exact forall₂_splice hitems
      | m path permutation =>
        simp only [editArray] at hedit ⊢
        rw [← hitems.length_eq]
        split at hedit
        · cases hedit
        rename_i hlength
        rw [if_neg hlength]
        cases hpermute : permuteOp items permutation with
        | none =>
          rw [hpermute] at hedit
          cases hedit
        | some permuted =>
          rw [hpermute] at hedit
          cases hedit
          obtain ⟨found, hfound, hsameFound⟩ := permuteOp_congr hitems hpermute
          rw [hfound]
          exact ⟨_, rfl, sameValue_arr_of_forall₂ hsameFound⟩
      | _ => cases hedit
    | _ =>
      rw [hleft, hright] at hsame
      cases hsame
  | _ =>
    rw [hleft] at hedit
    cases op <;> cases hedit

variable {root root' result : JsonTree α}

theorem applyOp_congr (hsame : JsonTree.SameValue root root') (hok : applyOp root op = .ok result) :
    ∃ found, applyOp root' op = .ok found ∧ JsonTree.SameValue result found := by
  rcases Op.isLeaf_or_isArray_or_isReplace op with hleaf | harray | hreplace
  · obtain ⟨hvalid, front, key, parent, edited, hpath, hget, hobj, hedit, rfl⟩ :=
      (applyOp_leaf_eq_ok_iff root hleaf result).mp hok
    obtain ⟨parent', hget', hparent⟩ := hsame.getAt hget
    obtain ⟨edited', hedit', hedited⟩ := editParent_congr hparent hedit
    refine ⟨root'.replaceAt front edited', ?_, hsame.replaceAt hget hedited⟩
    rw [applyOp_leaf_eq_ok_iff root' hleaf]
    exact ⟨hvalid, front, key, parent', edited', hpath, hget', hparent.isObj_eq ▸ hobj, hedit', rfl⟩
  · obtain ⟨hvalid, target, edited, hget, hedit, rfl⟩ :=
      (applyOp_array_eq_ok_iff root harray result).mp hok
    obtain ⟨target', hget', htarget⟩ := hsame.getAt hget
    obtain ⟨edited', hedit', hedited⟩ := editArray_congr htarget hedit
    refine ⟨root'.replaceAt op.path edited', ?_, hsame.replaceAt hget hedited⟩
    rw [applyOp_array_eq_ok_iff root' harray]
    exact ⟨hvalid, target', edited', hget', hedit', rfl⟩
  cases op with
  | r value =>
    cases hok
    exact ⟨result, rfl, .refl result⟩
  | _ => cases hreplace

theorem applyOps_congr {ops : List (Op α)}
    (hsame : JsonTree.SameValue root root') (hok : applyOps root ops = .ok result) :
    ∃ found, applyOps root' ops = .ok found ∧ JsonTree.SameValue result found := by
  induction ops generalizing root root' with
  | nil =>
    cases hok
    exact ⟨root', rfl, hsame⟩
  | cons op rest ih =>
    rw [applyOps, foldlM_except_cons_eq_ok_iff] at hok
    obtain ⟨middle, hmiddle, hrest⟩ := hok
    obtain ⟨middle', hmiddle', hsameMiddle⟩ := applyOp_congr hsame hmiddle
    obtain ⟨found, hfound, hsameFound⟩ := ih hsameMiddle hrest
    refine ⟨found, ?_, hsameFound⟩
    rw [applyOps, foldlM_except_cons_eq_ok_iff]
    exact ⟨middle', hmiddle', hfound⟩

/-- A diff replays on every value equal to the earlier revision. -/
theorem diffRevisions_replays {ι : Type} [DecidableEq ι] {before after : JsonTree ι}
    {held : JsonValue}
    (hbefore : before.Strict) (hafter : after.Strict) (hidentity : IdentitySound before after)
    (hheld : JsonTree.SameValue held before) :
    ∃ ops, diffRevisions before after = some ops ∧
      ∃ result, applyImmutable held (ops.map Op.erase) = .ok result ∧ JsonTree.SameValue result after := by
  obtain ⟨ops, hops, hspec⟩ := diffRevisions_spec ⟨hbefore, hafter, hidentity⟩
  have hrun : ∃ result, applyOps before ops = .ok result ∧ JsonTree.SameValue result after := by
    rcases hspec with ⟨-, rfl⟩ | ⟨-, hrewrite⟩
    · exact ⟨after, applyOps_singleton before _, .refl after⟩
    obtain ⟨result, hsame, hok⟩ := hrewrite before rfl
    exact ⟨result, hok, hsame⟩
  obtain ⟨result, hok, hsame⟩ := hrun
  obtain ⟨found, hfound, hsameFound⟩ := applyOps_congr
    ((sameValue_erase before).symm.trans hheld.symm) (applyOps_erase hok)
  refine ⟨ops, hops, found, ?_, ?_⟩
  · rw [applyImmutable, applyImmutableBatches_eq_ok_iff, flatten_singleton]
    exact hfound
  · exact hsameFound.symm.trans ((sameValue_erase result).symm.trans hsame)

end Delta

end Hummin
