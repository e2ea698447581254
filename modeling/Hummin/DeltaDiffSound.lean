/-
Soundness of the differ.  What a function adds to a batch is specified by what
it does to any root that holds the earlier value at its path; regions of an
array are specified between an arbitrary front and back, so that the gaps and
the matched pairs of an alignment compose.
-/
import Hummin.DeltaAlign
import Hummin.DeltaDiff
import Hummin.DeltaImmutable

namespace Hummin

open List Option PropertyList JsonTree

variable {ι : Type}

namespace Delta

/-! ### Comparisons -/

/-- Wherever `===` identifies parts of the two revisions, they are equal. -/
def IdentitySound (before after : JsonTree ι) : Prop :=
  ∀ path path' left right, before.getAt path = some left →
    after.getAt path' = some right → identity left = identity right →
      JsonTree.SameValue left right

/-- What the differ may assume of two values it compares. -/
structure Comparable (before after : JsonTree ι) : Prop where
  before_strict : before.Strict
  after_strict : after.Strict
  identity_sound : IdentitySound before after

theorem Comparable.child {before after left right : JsonTree ι}
    (hcompare : Comparable before after) (seg seg' : Seg) (hleft : before.child seg = some left)
    (hright : after.child seg' = some right) : Comparable left right where
  before_strict := hcompare.before_strict.child hleft
  after_strict := hcompare.after_strict.child hright
  identity_sound path path' x y hx hy := by
    apply hcompare.identity_sound (seg :: path) (seg' :: path')
    · rw [getAt_cons, hleft]
      exact hx
    rw [getAt_cons, hright]
    exact hy

theorem Comparable.same {before after : JsonTree ι} (hcompare : Comparable before after)
    (hidentity : identity before = identity after) : JsonTree.SameValue before after :=
  hcompare.identity_sound [] [] before after rfl rfl hidentity

variable {mark mark' : ι}

theorem Comparable.items {items items' : List (JsonTree ι)}
    (hcompare : Comparable (.arr mark items) (.arr mark' items'))
    {left right : JsonTree ι} (hleft : left ∈ items) (hright : right ∈ items') :
    Comparable left right := by
  obtain ⟨i, hi⟩ := mem_iff_getElem?.mp hleft
  obtain ⟨j, hj⟩ := mem_iff_getElem?.mp hright
  exact hcompare.child (.index i) (.index j) hi hj

theorem Comparable.fields {fields fields' : List (JsString × JsonTree ι)}
    (hcompare : Comparable (.obj mark fields) (.obj mark' fields'))
    {key : JsString} {left right : JsonTree ι} (hleft : get key fields = some left)
    (hright : get key fields' = some right) : Comparable left right :=
  hcompare.child (.key key) (.key key) hleft hright

theorem sameValue_arr_of_forall₂ {items items' : List (JsonTree ι)}
    (hsame : List.Forall₂ JsonTree.SameValue items items') :
    JsonTree.SameValue (.arr mark items) (.arr mark' items') := by
  refine .arr hsame.length_eq fun i item item' hitem hitem' => ?_
  obtain ⟨hlt, rfl⟩ := List.getElem?_eq_some_iff.mp hitem
  obtain ⟨hlt', rfl⟩ := List.getElem?_eq_some_iff.mp hitem'
  exact forall₂_iff_get.mp hsame |>.2 i hlt hlt'

/-- Keys without repetition that all lie in a list of the same length are all
of it. -/
theorem keys_subset_of_length {fields others : List (JsString × JsonTree ι)}
    (hnodup : (PropertyList.keys fields).Nodup) (hsubset : PropertyList.keys fields ⊆ PropertyList.keys others)
    (hlength : fields.length = others.length) : PropertyList.keys others ⊆ PropertyList.keys fields := by
  have hperm : (PropertyList.keys fields).Perm (PropertyList.keys others) := by
    apply (hnodup.subperm hsubset).perm_of_length_le
    simp [PropertyList.keys, hlength]
  exact hperm.symm.subset

/-! ### Extending a batch -/

/-- Unless the later batch overflowed, it is the earlier one with operations
added of which the specification holds. -/
def Extends (batch batch' : Batch ι) (spec : List (Op ι) → Prop) : Prop :=
  batch'.overflowed = false → batch.overflowed = false ∧
    ∃ added, batch'.ops = batch.ops ++ added ∧ spec added

variable {others : List (JsString × JsonTree ι)} {batch : Batch ι} {spec : List (Op ι) → Prop}

theorem Extends.nothing (hspec : spec []) (batch : Batch ι) : Extends batch batch spec := by
  intro hfine
  exact ⟨hfine, [], by simp, hspec⟩

theorem Extends.overflowed (hover : batch.overflowed = true) (spec : List (Op ι) → Prop) :
    Extends batch batch spec := by
  intro hfine
  rw [hover] at hfine
  simp at hfine

theorem Extends.emit {op : Op ι} (hspec : spec [op]) (batch : Batch ι) :
    Extends batch (emitOperation batch op) spec := by
  rw [emitOperation]
  split
  next hover =>
    exact Extends.overflowed hover spec
  rename_i hfine
  split
  · intro hover
    simp at hover
  intro _
  exact ⟨by simpa using hfine, [op], rfl, hspec⟩

theorem Extends.trans {middle batch' : Batch ι} {first second spec : List (Op ι) → Prop}
    (hfirst : Extends batch middle first) (hsecond : Extends middle batch' second)
    (hspec : ∀ front back, first front → second back → spec (front ++ back)) :
    Extends batch batch' spec := by
  intro hfine
  obtain ⟨hmiddle, back, hback, hbackSpec⟩ := hsecond hfine
  obtain ⟨hbatch, front, hfront, hfrontSpec⟩ := hfirst hmiddle
  refine ⟨hbatch, front ++ back, ?_, hspec front back hfrontSpec hbackSpec⟩
  rw [hback, hfront, append_assoc]

theorem Extends.mono {batch' : Batch ι} {first spec : List (Op ι) → Prop}
    (hfirst : Extends batch batch' first) (hspec : ∀ added, first added → spec added) :
    Extends batch batch' spec := by
  intro hfine
  obtain ⟨hbatch, added, hadded, hfirstSpec⟩ := hfirst hfine
  exact ⟨hbatch, added, hadded, hspec added hfirstSpec⟩

/-! ### What added operations do -/

/-- No operation of the list replaces the root. -/
def NoReplace (ops : List (Op ι)) : Prop :=
  ∀ op ∈ ops, isReplace op = false

/-- The operations replace the whole value, or turn every root that holds
`before` at `path` into one that holds a value equal to `after` there. -/
def ValueSpec (before after : JsonTree ι) (path : Path) (added : List (Op ι)) :
    Prop :=
  (path = [] ∧ added = [.r after]) ∨ (NoReplace added ∧
    ∀ root : JsonTree ι, root.getAt path = some before →
      ∃ result, JsonTree.SameValue result after ∧
        applyOps root added = .ok (root.replaceAt path result))

/-- The operations rewrite the region `removed` of an array, behind a front of
the given length, into items equal to `items`. -/
def RegionSpec (removed items : List (JsonTree ι)) (path : Path)
    (outputAt : Nat) (added : List (Op ι)) : Prop :=
  NoReplace added ∧ ∀ (root : JsonTree ι) mark front back,
    front.length = outputAt →
    root.getAt path = some (.arr mark (front ++ removed ++ back)) →
    ∃ middle, List.Forall₂ JsonTree.SameValue middle items ∧
      applyOps root added =
        .ok (root.replaceAt path (.arr mark (front ++ middle ++ back)))

theorem NoReplace.append {front back : List (Op ι)} (hfront : NoReplace front)
    (hback : NoReplace back) : NoReplace (front ++ back) := by
  exact forall_mem_append.mpr ⟨hfront, hback⟩

theorem noReplace_nil : NoReplace ([] : List (Op ι)) := by
  intro op hop
  simp at hop

theorem noReplace_singleton {op : Op ι} (hop : isReplace op = false) : NoReplace [op] := by
  intro other hother
  rw [mem_singleton.mp hother]
  exact hop

variable {added : List (Op ι)}

theorem ValueSpec.rewrites {before after : JsonTree ι} {path : Path}
    (hspec : ValueSpec before after path added) (hne : path ≠ []) : NoReplace added ∧
    ∀ root : JsonTree ι, root.getAt path = some before → ∃ result, JsonTree.SameValue result after ∧
        applyOps root added = .ok (root.replaceAt path result) := by
  rcases hspec with ⟨hnil, -⟩ | hspec
  · exact absurd hnil hne
  · exact hspec

theorem valueSpec_nil {before after : JsonTree ι}
    (hsame : JsonTree.SameValue before after) (path : Path) : ValueSpec before after path [] := by
  refine Or.inr ⟨noReplace_nil, fun root hget => ⟨before, hsame, ?_⟩⟩
  rw [replaceAt_self hget]
  rfl

/-- A set, which at the root is a replacement. -/
theorem extends_emitSet {before after : JsonTree ι} {path : Path}
    (hsafe : Path.hasReserved path = false) (batch : Batch ι) :
    Extends batch (emitSet path after batch) (ValueSpec before after path) := by
  rw [emitSet]
  split
  next hempty =>
    obtain rfl := isEmpty_iff.mp hempty
    exact Extends.emit (Or.inl ⟨rfl, rfl⟩) batch
  rename_i hempty
  have hne : path ≠ [] := by simpa using hempty
  refine Extends.emit (Or.inr ⟨noReplace_singleton rfl, ?_⟩) batch
  intro root hget
  refine ⟨after, .refl after, ?_⟩
  rw [applyOps_singleton]
  exact applyOp_s_overwrite hne hsafe hget

/-! ### Strings -/

theorem probeOverlap_spec {tail head b : JsString} {budget from_ n : Nat}
    (hprobe : probeOverlap tail head b budget from_ = some n) :
    n ≤ tail.length ∧ tail.drop (tail.length - n) = b.take n := by
  induction budget generalizing from_ with
  | zero => simp [probeOverlap] at hprobe
  | succ budget ih =>
    rw [probeOverlap] at hprobe
    split at hprobe
    · simp at hprobe
    rename_i k hk
    simp only at hprobe
    split at hprobe
    next hfits =>
      cases hprobe
      refine ⟨Nat.sub_le _ _, ?_⟩
      rcases Nat.le_total k tail.length with hle | hle
      · rw [Nat.sub_sub_self hle]
        exact hfits.2
      rw [Nat.sub_eq_zero_of_le hle, Nat.sub_zero, drop_length]
      rfl
    · exact ih hprobe

/-- The overlap is a suffix of the first text and a prefix of the second. -/
theorem overlap_spec (a b : JsString) (scan probe maxCandidates : Nat) :
    a.drop (a.length - overlap a b scan probe maxCandidates) =
      b.take (overlap a b scan probe maxCandidates) := by
  have hzero : a.drop (a.length - 0) = b.take 0 := by simp
  have hsuffix : ∀ tail : JsString, tail <:+ a → ∀ n, n ≤ tail.length →
      tail.drop (tail.length - n) = b.take n →
        a.drop (a.length - n) = b.take n := by
    rintro tail ⟨front, rfl⟩ n hn htail
    rw [← htail, length_append, drop_append, drop_eq_nil_of_le
      (by omega)]
    rw [nil_append]
    congr 1
    omega
  rw [overlap]
  split
  · exact hzero
  have htail : (if scan < a.length then a.drop (a.length - scan) else a)
      <:+ a := by
    split
    · exact drop_suffix _ _
    · exact suffix_refl a
  simp only
  split
  next n hprobe =>
    obtain ⟨hn, hn'⟩ := probeOverlap_spec hprobe
    exact hsuffix _ htail n hn hn'
  split
  · exact hzero
  cases hprobe : probeOverlap
      (if scan < a.length then a.drop (a.length - scan) else a)
      (b.take 1) b maxCandidates 0 with
  | none => exact hzero
  | some n =>
    obtain ⟨hn, hn'⟩ := probeOverlap_spec hprobe
    exact hsuffix _ htail n hn hn'

theorem extends_emitString {before after : JsString} {path : Path}
    (hne : path ≠ []) (hsafe : Path.hasReserved path = false) (batch : Batch ι) :
    Extends batch (emitString before after path batch)
      (ValueSpec (.str before) (.str after) path) := by
  rw [emitString]
  split
  next heq =>
    rw [heq]
    exact Extends.nothing (valueSpec_nil (.refl _) path) batch
  split
  next hprefix =>
    refine Extends.emit (Or.inr ⟨noReplace_singleton rfl, ?_⟩) batch
    intro root hget
    refine ⟨.str after, .refl _, ?_⟩
    rw [applyOps_singleton, (applyOp_text hne hsafe hget).1]
    nth_rewrite 1 [← hprefix.2]
    rw [take_append_drop]
  have hshared := overlap_spec before after defaultOverlapScan 64 8
  simp only
  generalize overlap before after defaultOverlapScan 64 8 = shared
    at hshared
  split
  · refine Extends.emit (Or.inr ⟨noReplace_singleton rfl, ?_⟩) batch
    intro root hget
    refine ⟨.str after, .refl _, ?_⟩
    rw [applyOps_singleton]
    exact applyOp_s_overwrite hne hsafe hget
  -- the trim leaves the shared part
  have htrim : ∀ root : JsonTree ι,
      root.getAt path = some (.str before) →
      applyOp root (.t path (before.length - shared)) =
        .ok (root.replaceAt path (.str (after.take shared))) := by
    intro root hget
    rw [(applyOp_text hne hsafe hget).2, hshared]
  split
  · refine Extends.trans
      (Extends.emit (show (· = [Op.t path (before.length - shared)]) _
        from rfl) batch)
      (Extends.emit (show (· = [Op.a path (after.drop shared)]) _
        from rfl) _) ?_
    rintro _ _ rfl rfl
    refine Or.inr ⟨(noReplace_singleton rfl).append (noReplace_singleton rfl), ?_⟩
    intro root hget
    refine ⟨.str after, .refl _, ?_⟩
    rw [applyOps_append ((applyOps_singleton root _).trans (htrim root hget)), applyOps_singleton,
      (applyOp_text hne hsafe (getAt_replaceAt hget _)).1,
      replaceAt_replaceAt hget, take_append_drop]
  next hlong =>
    refine Extends.emit (Or.inr ⟨noReplace_singleton rfl, ?_⟩) batch
    intro root hget
    refine ⟨.str after, .refl _, ?_⟩
    rw [applyOps_singleton, htrim root hget,
      take_of_length_le (by omega)]

/-! ### Regions -/

variable {removed : List (JsonTree ι)}

theorem regionSpec_nil {items : List (JsonTree ι)}
    (hsame : List.Forall₂ JsonTree.SameValue removed items) (path : Path)
    (outputAt : Nat) : RegionSpec removed items path outputAt [] := by
  refine ⟨noReplace_nil, ?_⟩
  intro root mark front back _ hget
  refine ⟨removed, hsame, ?_⟩
  rw [replaceAt_self hget]
  rfl

/-- Two neighbouring regions, one after the other. -/
theorem RegionSpec.append {removed' items items' : List (JsonTree ι)}
    {path : Path} {outputAt : Nat} {first second : List (Op ι)}
    (hfirst : RegionSpec removed items path outputAt first)
    (hsecond : RegionSpec removed' items' path (outputAt + items.length) second) :
    RegionSpec (removed ++ removed') (items ++ items') path outputAt (first ++ second) := by
  refine ⟨hfirst.1.append hsecond.1, ?_⟩
  intro root mark front back hfront hget
  obtain ⟨middle, hmiddle, hrun⟩ := hfirst.2 root mark front
    (removed' ++ back) hfront (by simpa [append_assoc] using hget)
  have hget' := getAt_replaceAt hget
    (.arr mark (front ++ middle ++ (removed' ++ back)))
  obtain ⟨middle', hmiddle', hrun'⟩ := hsecond.2
    (root.replaceAt path (.arr mark (front ++ middle ++ (removed' ++ back))))
    mark (front ++ middle) back
    (by rw [length_append, hfront, hmiddle.length_eq])
    (by rw [hget']; simp [append_assoc])
  refine ⟨middle ++ middle', rel_append hmiddle hmiddle', ?_⟩
  rw [applyOps_append hrun, hrun', replaceAt_replaceAt hget]
  simp [append_assoc]

theorem regionSpec_splice {items : List (JsonTree ι)} {path : Path}
    (hsafe : Path.hasReserved path = false) (outputAt : Nat) :
    RegionSpec removed items path outputAt [.p path outputAt removed.length items] := by
  refine ⟨noReplace_singleton rfl, ?_⟩
  intro root mark front back hfront hget
  refine ⟨items, forall₂_same.mpr fun item _ => .refl item, ?_⟩
  rw [applyOps_singleton, ← hfront]
  exact applyOp_p hsafe hget

variable {items' : List (JsonTree ι)} {left right : JsonTree ι}

/-- The edit of one element. -/
theorem regionSpec_element {path : Path} {outputAt : Nat}
    (hvalue : ValueSpec left right (path ++ [Seg.index outputAt]) added) :
    RegionSpec [left] [right] path outputAt added := by
  obtain ⟨hnoReplace, hrewrite⟩ := hvalue.rewrites (by simp)
  refine ⟨hnoReplace, ?_⟩
  intro root mark front back hfront hget
  have hchild : (JsonTree.arr mark (front ++ [left] ++ back)).child
      (.index outputAt) = some left := by
    rw [JsonTree.child, ← hfront, append_assoc, getElem?_append_right le_rfl, Nat.sub_self]
    rfl
  have helement : root.getAt (path ++ [Seg.index outputAt]) = some left := by
    rw [getAt_append_of_eq hget, getAt_cons, hchild]
    rfl
  obtain ⟨result, hsame, hrun⟩ := hrewrite root helement
  refine ⟨[result], .cons hsame .nil, ?_⟩
  rw [hrun, replaceAt_concat hget hchild, JsonTree.setChild, ← hfront,
    append_assoc, set_append_right _ _ le_rfl, Nat.sub_self]
  simp

variable [DecidableEq ι]

/-! ### Structural equality -/

theorem equalItems_sound {items others : List (JsonTree ι)}
    (hsound : ∀ item ∈ items, ∀ other ∈ others,
      equalJson item other = true → JsonTree.SameValue item other)
    (hlength : items.length = others.length) (hequal : equalItems items others = true) :
    List.Forall₂ JsonTree.SameValue items others := by
  induction items generalizing others with
  | nil =>
    obtain rfl := length_eq_zero_iff.mp hlength.symm
    exact .nil
  | cons item rest ih =>
    cases others with
    | nil => simp at hlength
    | cons other others =>
      rw [equalItems, Bool.and_eq_true] at hequal
      refine .cons (hsound item mem_cons_self other mem_cons_self
        hequal.1) (ih ?_ (Nat.succ.inj hlength) hequal.2)
      intro x hx y hy
      exact hsound x (mem_cons_of_mem _ hx) y
        (mem_cons_of_mem _ hy)

theorem equalFields_sound {fields others : List (JsString × JsonTree ι)}
    (hequal : equalFields fields others = true) :
    ∀ field ∈ fields, ∃ other, get field.1 others = some other ∧
      equalJson field.2 other = true := by
  induction fields with
  | nil => simp
  | cons field rest ih =>
    obtain ⟨key, value⟩ := field
    rw [equalFields, Bool.and_eq_true] at hequal
    refine forall_mem_cons.mpr ⟨?_, ih hequal.2⟩
    cases hget : get key others with
    | none => simp [hget] at hequal
    | some found =>
      rw [hget] at hequal
      exact ⟨found, rfl, hequal.1⟩

theorem equalJson_sound (hcompare : Comparable left right) (hequal : equalJson left right = true) :
    JsonTree.SameValue left right := by
  induction left generalizing right with
  | null | bool | num | str =>
    simp only [equalJson, decide_eq_true_eq] at hequal
    exact hcompare.same hequal
  | arr mark items ih =>
    simp only [equalJson, Bool.or_eq_true, decide_eq_true_eq] at hequal
    rcases hequal with hidentity | hequal
    · exact hcompare.same hidentity
    cases right with
    | null | bool | num | str | obj => simp at hequal
    | arr mark' others =>
      simp only [Bool.and_eq_true, beq_iff_eq] at hequal
      apply sameValue_arr_of_forall₂
      refine equalItems_sound ?_ hequal.1 hequal.2
      intro item hitem other hother
      exact ih item hitem (hcompare.items hitem hother)
  | obj mark fields ih =>
    simp only [equalJson, Bool.or_eq_true, decide_eq_true_eq] at hequal
    rcases hequal with hidentity | hequal
    · exact hcompare.same hidentity
    cases right with
    | null | bool | num | str | arr => simp at hequal
    | obj mark' others =>
      simp only [Bool.and_eq_true, beq_iff_eq] at hequal
      have hall := equalFields_sound hequal.2
      have hnodup :=
        ((strict_obj_iff _ _).mp hcompare.before_strict).1
      have hsubset : keys fields ⊆
          keys others := by
        intro key hkey
        obtain ⟨field, hfield, rfl⟩ := mem_map.mp hkey
        obtain ⟨other, hother, -⟩ := hall field hfield
        rw [← get_isSome_iff, hother]
        rfl
      refine .obj (fun key => ?_) fun key value value' hget hget' => ?_
      · rw [Bool.eq_iff_iff, get_isSome_iff, get_isSome_iff]
        exact ⟨fun h => hsubset h, fun h =>
          keys_subset_of_length hnodup hsubset hequal.1 h⟩
      have hmem := mem_of_get_eq_some hget
      obtain ⟨other, hother, hequal'⟩ := hall _ hmem
      rw [hget'] at hother
      cases hother
      exact ih _ hmem (hcompare.fields hget hget') hequal'

theorem sameValue_sound (hcompare : Comparable left right) (hsame : sameValue left right = true) :
    JsonTree.SameValue left right := by
  rw [sameValue, Bool.or_eq_true, decide_eq_true_eq] at hsame
  rcases hsame with hidentity | hequal
  · exact hcompare.same hidentity
  · exact equalJson_sound hcompare hequal

/-! ### Arrays -/

section Arrays

variable {before after : List (JsonTree ι)} {path : Path}
  {value : ValueDiff ι} {region : RegionDiff ι} {fuel : Nat}

/-- The differ of values does its work on the elements of the two arrays. -/
def ElementsDiffer (value : ValueDiff ι) (before after : List (JsonTree ι))
    (path : Path) : Prop :=
  ∀ left ∈ before, ∀ right ∈ after, ∀ at_ batch, ∃ batch',
    value left right (path ++ [Seg.index at_]) batch = some batch' ∧
      Extends batch batch' (ValueSpec left right (path ++ [Seg.index at_]))

/-- The differ of regions does its work on the regions below a size. -/
def RegionsDiffer (region : RegionDiff ι) (before after : List (JsonTree ι))
    (path : Path) (size : Nat) : Prop :=
  ∀ beforeStart beforeEnd afterStart afterEnd outputStart batch,
    beforeStart ≤ beforeEnd → beforeEnd ≤ before.length →
    afterStart ≤ afterEnd → afterEnd ≤ after.length →
    beforeEnd - beforeStart + (afterEnd - afterStart) < size → ∃ batch',
      region beforeStart beforeEnd afterStart afterEnd outputStart batch =
        some batch' ∧
      Extends batch batch' (RegionSpec (slice before beforeStart beforeEnd)
        (slice after afterStart afterEnd) path outputStart)

variable {beforeEnd : Nat}

variable {afterEnd : Nat}

theorem processArrayMatches_spec (hregion : RegionsDiffer region before after path fuel)
    (hvalue : ElementsDiffer value before after path)
    (hcompare : ∀ left ∈ before, ∀ right ∈ after, Comparable left right)
    {matches_ : List ArrayMatch} {beforeAt afterAt : Nat}
    (haligned : Aligned beforeAt beforeEnd afterAt afterEnd matches_)
    (hbefore : beforeEnd ≤ before.length) (hafter : afterEnd ≤ after.length)
    (hsize : beforeEnd - beforeAt + (afterEnd - afterAt) < fuel ∨
      matches_ ≠ [] ∧ beforeEnd - beforeAt + (afterEnd - afterAt) ≤ fuel)
    (outputAt : Nat) (batch : Batch ι) :
    ∃ batch', processArrayMatches region value before after path beforeEnd
        afterEnd beforeAt afterAt outputAt matches_ batch = some batch' ∧
      Extends batch batch' (RegionSpec (slice before beforeAt beforeEnd)
        (slice after afterAt afterEnd) path outputAt) := by
  induction matches_ generalizing beforeAt afterAt outputAt batch with
  | nil =>
    rw [processArrayMatches]
    split
    next hover =>
      exact ⟨batch, rfl, Extends.overflowed hover _⟩
    · refine hregion _ _ _ _ _ _ haligned.1 hbefore haligned.2 hafter ?_
      simpa using hsize
  | cons pair rest ih =>
    obtain ⟨beforeMatch, afterMatch⟩ := pair
    obtain ⟨hb, hbe, ha, hae, hrest⟩ := haligned
    rw [processArrayMatches]
    split
    next hover =>
      exact ⟨batch, rfl, Extends.overflowed hover _⟩
    have hsize' : beforeEnd - beforeAt + (afterEnd - afterAt) ≤ fuel := by
      rcases hsize with hlt | ⟨-, hle⟩
      · exact hlt.le
      · exact hle
    -- the gap before the pair
    obtain ⟨gap, hgap, hgapSpec⟩ := hregion beforeAt beforeMatch afterAt
      afterMatch outputAt batch hb (by omega) ha (by omega) (by omega)
    -- the pair itself
    have hleft := getElem?_eq_getElem (hbe.trans_le hbefore)
    have hright := getElem?_eq_getElem (hae.trans_le hafter)
    generalize before[beforeMatch] = left at hleft
    generalize after[afterMatch] = right at hright
    have hleftMem := mem_of_getElem? hleft
    have hrightMem := mem_of_getElem? hright
    obtain ⟨element, helement, helementSpec⟩ : ∃ element,
        (if sameValue left right then some gap else value left right
          (path ++ [Seg.index (outputAt + (afterMatch - afterAt))]) gap) =
            some element ∧
        Extends gap element (RegionSpec [left] [right] path
          (outputAt + (afterMatch - afterAt))) := by
      split
      next hsame =>
        refine ⟨gap, rfl, Extends.nothing ?_ gap⟩
        exact regionSpec_nil (.cons (sameValue_sound
          (hcompare _ hleftMem _ hrightMem) hsame) .nil) path _
      obtain ⟨element, helement, hspec⟩ := hvalue left hleftMem right
        hrightMem (outputAt + (afterMatch - afterAt)) gap
      exact ⟨element, helement, hspec.mono fun added hadded =>
        regionSpec_element hadded⟩
    obtain ⟨last, hlast, hlastSpec⟩ := ih hrest (Or.inl (by omega))
      (outputAt + (afterMatch - afterAt) + 1) element
    refine ⟨last, ?_, ?_⟩
    · simp only [hgap, hleft, hright, bind_eq_bind, bind_some]
      split at helement
      next hsame =>
        rw [if_pos hsame, some.inj helement]
        exact hlast
      next hdiffer =>
        rw [if_neg hdiffer, helement]
        exact hlast
    have hbeforeSplit : slice before beforeAt beforeEnd =
        slice before beforeAt beforeMatch ++
          ([left] ++ slice before (beforeMatch + 1) beforeEnd) := by
      rw [← slice_append_slice hb hbe.le, slice_cons hleft hbe]
      rfl
    have hafterSplit : slice after afterAt afterEnd =
        slice after afterAt afterMatch ++
          ([right] ++ slice after (afterMatch + 1) afterEnd) := by
      rw [← slice_append_slice ha hae.le, slice_cons hright hae]
      rfl
    rw [hbeforeSplit, hafterSplit]
    refine hgapSpec.trans (helementSpec.trans hlastSpec
      fun front back hfront hback => hfront.append hback) ?_
    intro front back hfront hback
    refine hfront.append ?_
    rw [length_slice (by omega)]
    exact hback

theorem sameCount_spec (lefts rights : List (JsonTree ι))
    (hcompare : ∀ left ∈ lefts, ∀ right ∈ rights, Comparable left right) :
    sameCount lefts rights ≤ lefts.length ∧
      sameCount lefts rights ≤ rights.length ∧
      List.Forall₂ JsonTree.SameValue (lefts.take (sameCount lefts rights))
        (rights.take (sameCount lefts rights)) := by
  induction lefts generalizing rights with
  | nil => simp [sameCount]
  | cons left lefts ih =>
    cases rights with
    | nil => simp [sameCount]
    | cons right rights =>
      rw [sameCount]
      split
      next hsame =>
        obtain ⟨hleft, hright, htail⟩ := ih rights fun x hx y hy =>
          hcompare x (mem_cons_of_mem _ hx) y
            (mem_cons_of_mem _ hy)
        refine ⟨Nat.succ_le_succ hleft, Nat.succ_le_succ hright, ?_⟩
        exact .cons (sameValue_sound (hcompare left mem_cons_self right mem_cons_self) hsame) htail
      · simp

variable {beforeStart : Nat}

variable {afterStart : Nat}

section

variable (hcompare : ∀ left ∈ before, ∀ right ∈ after, Comparable left right)
include hcompare

/-- The common front of two regions. -/
theorem lead_spec (hbefore : beforeEnd ≤ before.length) (hafter : afterEnd ≤ after.length)
    {lead : Nat} (hlead : sameCount (slice before beforeStart beforeEnd)
      (slice after afterStart afterEnd) = lead) :
    lead ≤ beforeEnd - beforeStart ∧ lead ≤ afterEnd - afterStart ∧
      List.Forall₂ JsonTree.SameValue
        (slice before beforeStart (beforeStart + lead))
        (slice after afterStart (afterStart + lead)) := by
  obtain ⟨hleft, hright, hsame⟩ := sameCount_spec
    (slice before beforeStart beforeEnd)
    (slice after afterStart afterEnd) fun x hx y hy =>
      hcompare x (mem_of_mem_slice hx) y (mem_of_mem_slice hy)
  rw [hlead] at hleft hright hsame
  rw [length_slice hbefore] at hleft
  rw [length_slice hafter] at hright
  refine ⟨hleft, hright, ?_⟩
  rwa [take_slice hleft, take_slice hright] at hsame

/-- The common back of two regions. -/
theorem trail_spec (hbefore : beforeEnd ≤ before.length) (hafter : afterEnd ≤ after.length)
    {trail : Nat} (htrail : sameCount (slice before beforeStart beforeEnd).reverse
      (slice after afterStart afterEnd).reverse = trail) :
    trail ≤ beforeEnd - beforeStart ∧ trail ≤ afterEnd - afterStart ∧
      List.Forall₂ JsonTree.SameValue
        (slice before (beforeEnd - trail) beforeEnd)
        (slice after (afterEnd - trail) afterEnd) := by
  obtain ⟨hleft, hright, hsame⟩ := sameCount_spec
    (slice before beforeStart beforeEnd).reverse
    (slice after afterStart afterEnd).reverse fun x hx y hy =>
      hcompare x (mem_of_mem_slice (mem_reverse.mp hx)) y
        (mem_of_mem_slice (mem_reverse.mp hy))
  rw [htrail] at hleft hright hsame
  rw [length_reverse, length_slice hbefore] at hleft
  rw [length_reverse, length_slice hafter] at hright
  refine ⟨hleft, hright, ?_⟩
  rw [take_reverse_slice hbefore hleft, take_reverse_slice hafter hright]
    at hsame
  exact forall₂_reverse_iff.mp hsame

end

theorem aligned_alignRegion (lefts : List (JsonTree ι)) (beforeStart : Nat)
    (rights : List (JsonTree ι)) (afterStart : Nat) :
    Aligned beforeStart (beforeStart + lefts.length) afterStart
      (afterStart + rights.length)
      (alignRegion lefts beforeStart rights afterStart) := by
  have hnil : Aligned beforeStart (beforeStart + lefts.length) afterStart
      (afterStart + rights.length) [] :=
    ⟨Nat.le_add_right _ _, Nat.le_add_right _ _⟩
  have hchoose : ∀ first second : List ArrayMatch,
      Aligned beforeStart (beforeStart + lefts.length) afterStart
        (afterStart + rights.length) first →
      Aligned beforeStart (beforeStart + lefts.length) afterStart
        (afterStart + rights.length) second →
      Aligned beforeStart (beforeStart + lefts.length) afterStart
        (afterStart + rights.length)
        (if !first.isEmpty then first else second) := by
    intro first second hfirst hsecond
    split
    · exact hfirst
    · exact hsecond
  rw [alignRegion]
  apply hchoose
  · split
    · exact aligned_positionalMatches lefts rights beforeStart afterStart
    · exact hnil
  apply hchoose
  · cases hsub : identitySubsequence lefts beforeStart rights afterStart with
    | none => exact hnil
    | some pairs => exact aligned_identitySubsequence hsub
  apply hchoose
  · exact aligned_identityAnchors lefts beforeStart rights afterStart
  cases hlcs : lcsMatches lefts rights semanticallyAligned
      maxSemanticCells with
  | none => exact hnil
  | some pairs =>
    exact (aligned_lcsMatches hlcs).shift beforeStart afterStart

theorem diffTrimmedRegion_spec (hsafe : Path.hasReserved path = false)
    (hregion : RegionsDiffer region before after path fuel)
    (hvalue : ElementsDiffer value before after path)
    (hcompare : ∀ left ∈ before, ∀ right ∈ after, Comparable left right)
    (hbeforeLe : beforeStart ≤ beforeEnd) (hbefore : beforeEnd ≤ before.length)
    (hafterLe : afterStart ≤ afterEnd) (hafter : afterEnd ≤ after.length)
    (hsize : beforeEnd - beforeStart + (afterEnd - afterStart) ≤ fuel)
    (outputStart : Nat) (batch : Batch ι) :
    ∃ batch', diffTrimmedRegion region value before after path beforeStart
        beforeEnd afterStart afterEnd outputStart batch = some batch' ∧
      Extends batch batch' (RegionSpec (slice before beforeStart beforeEnd)
        (slice after afterStart afterEnd) path outputStart) := by
  have hlength : (slice before beforeStart beforeEnd).length =
      beforeEnd - beforeStart := length_slice hbefore
  have hlength' : (slice after afterStart afterEnd).length =
      afterEnd - afterStart := length_slice hafter
  have hsplice : Extends batch (emitOperation batch (Op.p path outputStart
      (beforeEnd - beforeStart) (slice after afterStart afterEnd)))
      (RegionSpec (slice before beforeStart beforeEnd)
        (slice after afterStart afterEnd) path outputStart) := by
    rw [← hlength]
    exact Extends.emit (regionSpec_splice hsafe outputStart) batch
  rw [diffTrimmedRegion]
  simp only
  split
  next hempty =>
    obtain rfl : beforeStart = beforeEnd := by omega
    obtain rfl : afterStart = afterEnd := by omega
    refine ⟨batch, rfl, Extends.nothing ?_ batch⟩
    rw [slice_self, slice_self]
    exact regionSpec_nil .nil path outputStart
  split
  · exact ⟨_, rfl, hsplice⟩
  have haligned := aligned_alignRegion
    (slice before beforeStart beforeEnd) beforeStart
    (slice after afterStart afterEnd) afterStart
  rw [hlength, hlength', Nat.add_sub_cancel' hbeforeLe, Nat.add_sub_cancel' hafterLe] at haligned
  split
  next hfound =>
    refine processArrayMatches_spec hregion hvalue hcompare haligned hbefore
      hafter (Or.inr ⟨?_, hsize⟩) outputStart batch
    simpa using hfound
  split
  next hone =>
    have hleft := getElem?_eq_getElem
      (show beforeStart < before.length by omega)
    have hright := getElem?_eq_getElem
      (show afterStart < after.length by omega)
    obtain ⟨batch', hbatch', hspec⟩ := hvalue _
      (mem_of_getElem? hleft) _ (mem_of_getElem? hright)
      outputStart batch
    refine ⟨batch', ?_, hspec.mono fun added hadded => ?_⟩
    · simp only [hleft, hright, bind_eq_bind, bind_some, hbatch']
    obtain rfl : beforeEnd = beforeStart + 1 := by omega
    obtain rfl : afterEnd = afterStart + 1 := by omega
    rw [slice_succ hleft, slice_succ hright]
    exact regionSpec_element hadded
  · exact ⟨_, rfl, hsplice⟩

/-- Regions below the fuel are diffed soundly. -/
theorem diffArrayRegion_spec (hsafe : Path.hasReserved path = false)
    (hvalue : ElementsDiffer value before after path)
    (hcompare : ∀ left ∈ before, ∀ right ∈ after, Comparable left right) (fuel : Nat) :
    RegionsDiffer (diffArrayRegion value before after path fuel) before after path fuel := by
  induction fuel with
  | zero =>
    intro beforeStart beforeEnd afterStart afterEnd outputStart batch _ _ _ _
      hsize
    omega
  | succ fuel ih =>
    intro beforeStart beforeEnd afterStart afterEnd outputStart batch
      hbeforeLe hbefore hafterLe hafter hsize
    simp only [diffArrayRegion]
    split
    next hover =>
      exact ⟨batch, rfl, Extends.overflowed hover _⟩
    generalize hlead : sameCount (slice before beforeStart beforeEnd)
      (slice after afterStart afterEnd) = lead
    obtain ⟨hl, hr, hleadSame⟩ := lead_spec hcompare hbefore hafter hlead
    generalize htrail : sameCount
      (slice before (beforeStart + lead) beforeEnd).reverse
      (slice after (afterStart + lead) afterEnd).reverse = trail
    obtain ⟨hl', hr', htrailSame⟩ :=
      trail_spec hcompare hbefore hafter htrail
    obtain ⟨batch', hbatch', hspec⟩ := diffTrimmedRegion_spec hsafe ih hvalue
      hcompare (show beforeStart + lead ≤ beforeEnd - trail by omega)
      (by omega) (show afterStart + lead ≤ afterEnd - trail by omega)
      (by omega) (by omega) (outputStart + lead) batch
    refine ⟨batch', hbatch', hspec.mono fun added hadded => ?_⟩
    have hbeforeSplit : slice before beforeStart beforeEnd =
        slice before beforeStart (beforeStart + lead) ++
          (slice before (beforeStart + lead) (beforeEnd - trail) ++
            slice before (beforeEnd - trail) beforeEnd) := by
      rw [slice_append_slice (by omega) (by omega),
        slice_append_slice (by omega) (by omega)]
    have hafterSplit : slice after afterStart afterEnd =
        slice after afterStart (afterStart + lead) ++
          (slice after (afterStart + lead) (afterEnd - trail) ++
            slice after (afterEnd - trail) afterEnd) := by
      rw [slice_append_slice (by omega) (by omega),
        slice_append_slice (by omega) (by omega)]
    rw [hbeforeSplit, hafterSplit]
    have hfront := regionSpec_nil hleadSame path outputStart
    have hback := regionSpec_nil htrailSame path
      (outputStart + lead + (slice after (afterStart + lead) (afterEnd - trail)).length)
    have hlength : outputStart +
        (slice after afterStart (afterStart + lead)).length =
          outputStart + lead := by
      rw [length_slice (by omega), Nat.add_sub_cancel_left]
    have hrest := hadded.append hback
    rw [← hlength] at hrest
    simpa using hfront.append hrest

omit [DecidableEq ι] in
/-- The items that a permutation reads, which `===` identifies with `after`. -/
theorem exists_permuted {order : List Nat}
    (hcompare : ∀ left ∈ before, ∀ right ∈ after, Comparable left right)
    (horder : List.Forall₂ (fun index value => ∃ item,
      before[index]? = some item ∧ identity item = identity value)
      order after) :
    ∃ permuted, List.Forall₂ (fun index item => before[index]? = some item)
        order permuted ∧ List.Forall₂ JsonTree.SameValue permuted after := by
  induction horder with
  | nil => exact ⟨[], .nil, .nil⟩
  | cons hhead _ ih =>
    obtain ⟨item, hitem, hidentity⟩ := hhead
    obtain ⟨permuted, hread, hsame⟩ := ih fun left hleft right hright =>
      hcompare left hleft right (mem_cons_of_mem _ hright)
    have hcompare' := hcompare item (mem_of_getElem? hitem) _
      mem_cons_self
    exact ⟨item :: permuted, .cons hitem hread, .cons (hcompare'.same hidentity) hsame⟩

theorem diffArray_spec {mark mark' : ι} (hsafe : Path.hasReserved path = false)
    (hvalue : ElementsDiffer value before after path)
    (hcompare : Comparable (.arr mark before) (.arr mark' after)) (batch : Batch ι) :
    ∃ batch', diffArray value mark mark' before after path batch =
        some batch' ∧
      Extends batch batch'
        (ValueSpec (.arr mark before) (.arr mark' after) path) := by
  have hitems : ∀ left ∈ before, ∀ right ∈ after, Comparable left right :=
    fun left hleft right hright => hcompare.items hleft hright
  -- the whole array is one region without front and back
  have hregion : ∃ batch', diffArrayRegion value before after path
        (before.length + after.length + 1) 0 before.length 0 after.length 0
        batch = some batch' ∧
      Extends batch batch'
        (ValueSpec (.arr mark before) (.arr mark' after) path) := by
    obtain ⟨batch', hbatch', hspec⟩ := diffArrayRegion_spec hsafe hvalue hitems
      (before.length + after.length + 1) 0 before.length 0 after.length 0 batch
      (Nat.zero_le _) le_rfl (Nat.zero_le _) le_rfl (by omega)
    refine ⟨batch', hbatch', hspec.mono fun added hadded => Or.inr
      ⟨hadded.1, fun root hget => ?_⟩⟩
    obtain ⟨middle, hmiddle, hrun⟩ := hadded.2 root mark [] [] rfl
      (by simpa [slice] using hget)
    refine ⟨.arr mark middle, sameValue_arr_of_forall₂ ?_, ?_⟩
    · simpa [slice] using hmiddle
    · simpa using hrun
  rw [diffArray]
  split
  next hequal =>
    refine ⟨batch, rfl, Extends.nothing (valueSpec_nil ?_ path) batch⟩
    rcases hequal with rfl | hequal
    · exact hcompare.same rfl
    · exact equalJson_sound hcompare hequal
  split
  · cases hpermutation : permutation before after with
    | none => exact hregion
    | some order =>
      obtain ⟨hlength, hnodup, horder⟩ := permutation_spec hpermutation
      obtain ⟨permuted, hread, hsame⟩ := exists_permuted hitems horder
      refine ⟨_, rfl, Extends.emit (Or.inr ⟨noReplace_singleton rfl, ?_⟩) batch⟩
      intro root hget
      refine ⟨.arr mark permuted, sameValue_arr_of_forall₂ hsame, ?_⟩
      rw [applyOps_singleton]
      exact applyOp_m hsafe hget (horder.length_eq.trans hlength.symm)
        hnodup hread
  · exact hregion

end Arrays

/-! ### Objects -/

section Objects

variable {before after : List (JsString × JsonTree ι)} {path : Path}
  {value : ValueDiff ι}

/-- The operations bring the listed properties of an object, which still hold
what `before` holds, to the listed values and keep the others. -/
def FieldsSpec (before listed : List (JsString × JsonTree ι)) (path : Path)
    (added : List (Op ι)) : Prop :=
  NoReplace added ∧ ∀ (root : JsonTree ι) mark current,
    (∀ key ∈ PropertyList.keys listed, PropertyList.get key current = PropertyList.get key before) →
    root.getAt path = some (.obj mark current) →
    ∃ result,
      (∀ field ∈ listed, ∃ value, PropertyList.get field.1 result = some value ∧
        JsonTree.SameValue value field.2) ∧
      (∀ key, key ∉ PropertyList.keys listed →
        PropertyList.get key result = PropertyList.get key current) ∧
      applyOps root added = .ok (root.replaceAt path (.obj mark result))

/-- The operations drop the listed properties that `after` does not have. -/
def DeletesSpec (after : List (JsString × JsonTree ι)) (listed : List JsString)
    (path : Path) (added : List (Op ι)) : Prop :=
  NoReplace added ∧ ∀ (root : JsonTree ι) mark current,
    root.getAt path = some (.obj mark current) →
    ∃ result,
      (∀ key, PropertyList.get key result =
        if key ∈ listed ∧ key ∉ PropertyList.keys after then none
        else PropertyList.get key current) ∧
      applyOps root added = .ok (root.replaceAt path (.obj mark result))

/-- The edit of one property. -/
def FieldSpec (before : List (JsString × JsonTree ι)) (key : JsString)
    (right : JsonTree ι) (path : Path) (added : List (Op ι)) : Prop :=
  NoReplace added ∧ ∀ (root : JsonTree ι) mark current,
    PropertyList.get key current = PropertyList.get key before →
    root.getAt path = some (.obj mark current) →
    ∃ value, JsonTree.SameValue value right ∧ applyOps root added =
      .ok (root.replaceAt path (.obj mark (PropertyList.put keyPrecedes key value current)))

omit [DecidableEq ι] in
theorem fieldSpec_edited {key : JsString} {left right : JsonTree ι}
    {added : List (Op ι)} (hleft : get key before = some left)
    (hvalue : ValueSpec left right (path ++ [Seg.key key]) added) :
    FieldSpec before key right path added := by
  obtain ⟨hnoReplace, hrewrite⟩ := hvalue.rewrites (by simp)
  refine ⟨hnoReplace, ?_⟩
  intro root mark current hcurrent hget
  have hchild : (JsonTree.obj mark current).child (.key key) = some left :=
    hcurrent.trans hleft
  have hfield : root.getAt (path ++ [Seg.key key]) = some left := by
    rw [getAt_append_of_eq hget, getAt_cons, hchild]
    rfl
  obtain ⟨result, hsame, hrun⟩ := hrewrite root hfield
  refine ⟨result, hsame, ?_⟩
  rw [hrun, replaceAt_concat hget hchild]
  rfl

omit [DecidableEq ι] in
theorem fieldSpec_defined {key : JsString} {right : JsonTree ι}
    (hsafe : Path.hasReserved (path ++ [Seg.key key]) = false) :
    FieldSpec before key right path [.s (path ++ [Seg.key key]) right] := by
  refine ⟨noReplace_singleton rfl, ?_⟩
  intro root mark current _ hget
  refine ⟨right, .refl right, ?_⟩
  rw [applyOps_singleton]
  exact applyOp_s_define hsafe hget rfl rfl

omit [DecidableEq ι] in
/-- One property, then the others. -/
theorem FieldSpec.cons {key : JsString} {right : JsonTree ι}
    {rest : List (JsString × JsonTree ι)} {first second : List (Op ι)} (hkey : key ∉ PropertyList.keys rest)
    (hfirst : FieldSpec before key right path first)
    (hsecond : FieldsSpec before rest path second) :
    FieldsSpec before ((key, right) :: rest) path (first ++ second) := by
  refine ⟨hfirst.1.append hsecond.1, ?_⟩
  intro root mark current hcurrent hget
  obtain ⟨value, hsame, hrun⟩ := hfirst.2 root mark current
    (hcurrent key mem_cons_self) hget
  obtain ⟨result, hlisted, hothers, hrun'⟩ := hsecond.2
    (root.replaceAt path (.obj mark (put keyPrecedes key value current))) mark
    (put keyPrecedes key value current) (by
      intro other hother
      have hne : other ≠ key := fun heq => hkey (heq ▸ hother)
      rw [get_put_of_ne _ hne]
      exact hcurrent other (mem_cons_of_mem _ hother))
    (getAt_replaceAt hget _)
  refine ⟨result, ?_, ?_, ?_⟩
  · refine forall_mem_cons.mpr ⟨?_, hlisted⟩
    refine ⟨value, ?_, hsame⟩
    rw [hothers key hkey, get_put_self]
  · intro other hother
    rw [PropertyList.keys, map_cons, mem_cons, not_or] at hother
    rw [hothers other hother.2, get_put_of_ne _ hother.1]
  · rw [applyOps_append hrun, hrun', replaceAt_replaceAt hget]

/-- The differ of values does its work on properties that both objects have. -/
def PropertiesDiffer (value : ValueDiff ι)
    (before after : List (JsString × JsonTree ι)) (path : Path) : Prop :=
  ∀ key left right, PropertyList.get key before = some left →
    (key, right) ∈ after → Path.hasReserved (path ++ [Seg.key key]) = false →
    ∀ batch, ∃ batch',
      value left right (path ++ [Seg.key key]) batch = some batch' ∧
        Extends batch batch' (ValueSpec left right (path ++ [Seg.key key]))

omit [DecidableEq ι] in
theorem diffFields_spec {listed : List (JsString × JsonTree ι)} (hsafe : ∀ key ∈ keys listed,
      Path.hasReserved (path ++ [Seg.key key]) = false) (hnodup : (keys listed).Nodup)
    (hvalue : PropertiesDiffer value before listed path) (batch : Batch ι) :
    ∃ batch', diffFields value before path listed batch = some batch' ∧
      Extends batch batch' (FieldsSpec before listed path) := by
  induction listed generalizing batch with
  | nil =>
    refine ⟨batch, rfl, Extends.nothing ⟨noReplace_nil, ?_⟩ batch⟩
    intro root mark current _ hget
    refine ⟨current, by simp, fun key _ => rfl, ?_⟩
    rw [replaceAt_self hget]
    rfl
  | cons field rest ih =>
    obtain ⟨key, right⟩ := field
    obtain ⟨hkey, hrest⟩ := nodup_cons.mp hnodup
    rw [diffFields]
    split
    next hover =>
      exact ⟨batch, rfl, Extends.overflowed hover _⟩
    have htail := ih
      (fun other hother => hsafe other (mem_cons_of_mem _ hother)) hrest
      (fun other left right hleft hright => hvalue other left right hleft
        (mem_cons_of_mem _ hright))
    cases hleft : get key before with
    | some left =>
      obtain ⟨edited, hedited, hspec⟩ := hvalue key left right hleft
        mem_cons_self (hsafe key mem_cons_self) batch
      obtain ⟨batch', hbatch', hspec'⟩ := htail edited
      refine ⟨batch', ?_, hspec.trans hspec' fun front back hfront hback =>
        (fieldSpec_edited hleft hfront).cons hkey hback⟩
      simp only [hedited, bind_eq_bind, bind_some, hbatch']
    | none =>
      have hspec : Extends batch (emitSet (path ++ [Seg.key key]) right batch)
          (FieldSpec before key right path) := by
        rw [emitSet, if_neg (by simp)]
        exact Extends.emit (fieldSpec_defined (hsafe key mem_cons_self)) batch
      obtain ⟨batch', hbatch', hspec'⟩ :=
        htail (emitSet (path ++ [Seg.key key]) right batch)
      exact ⟨batch', hbatch', hspec.trans hspec' fun front back hfront
        hback => hfront.cons hkey hback⟩

omit [DecidableEq ι] in
theorem deleteFields_spec {listed : List JsString}
    (hsafe : ∀ key ∈ listed, Path.hasReserved (path ++ [Seg.key key]) = false) (batch : Batch ι) :
    Extends batch (deleteFields after path listed batch) (DeletesSpec after listed path) := by
  induction listed generalizing batch with
  | nil =>
    refine Extends.nothing ⟨noReplace_nil, ?_⟩ batch
    intro root mark current hget
    refine ⟨current, by simp, ?_⟩
    rw [replaceAt_self hget]
    rfl
  | cons key rest ih =>
    have htail := ih fun other hother =>
      hsafe other (mem_cons_of_mem _ hother)
    rw [deleteFields]
    split
    next hover =>
      exact Extends.overflowed hover _
    split
    next hpresent =>
      rw [get_isSome_iff] at hpresent
      refine (htail batch).mono fun added hadded => ⟨hadded.1, ?_⟩
      intro root mark current hget
      obtain ⟨result, hresult, hrun⟩ := hadded.2 root mark current hget
      refine ⟨result, fun other => ?_, hrun⟩
      rw [hresult other]
      by_cases heq : other = key
      · simp [heq, hpresent]
      · simp [heq]
    rename_i habsent
    rw [get_isSome_iff] at habsent
    refine Extends.trans
      (Extends.emit (show (· = [Op.d (path ++ [.key key])]) _ from rfl)
        batch) (htail _) ?_
    rintro _ back rfl hback
    refine ⟨(noReplace_singleton rfl).append hback.1, ?_⟩
    intro root mark current hget
    have hdelete : applyOps root [Op.d (path ++ [Seg.key key])] = .ok
        (root.replaceAt path
          (.obj mark (erase key current))) := by
      rw [applyOps_singleton]
      exact applyOp_d_field (hsafe key mem_cons_self) hget
    obtain ⟨result, hresult, hrun⟩ := hback.2 _ mark
      (erase key current) (getAt_replaceAt hget _)
    refine ⟨result, fun other => ?_, ?_⟩
    · rw [hresult other, get_erase]
      by_cases heq : other = key
      · simp [heq, habsent]
      · simp [heq]
    · rw [applyOps_append hdelete, hrun, replaceAt_replaceAt hget]

theorem diffObject_spec {mark mark' : ι} (hsafe : Path.hasReserved path = false)
    (hvalue : PropertiesDiffer value before after path)
    (hcompare : Comparable (.obj mark before) (.obj mark' after)) (batch : Batch ι) :
    ∃ batch', diffObject value mark mark' before after path batch =
        some batch' ∧
      Extends batch batch'
        (ValueSpec (.obj mark before) (.obj mark' after) path) := by
  rw [diffObject]
  split
  · split
    next hequal =>
      exact ⟨batch, rfl, Extends.nothing
        (valueSpec_nil (equalJson_sound hcompare hequal) path) batch⟩
    · exact ⟨_, rfl, extends_emitSet hsafe batch⟩
  rename_i hreserved
  rw [any_append, Bool.or_eq_true, not_or] at hreserved
  have hkeySafe : ∀ fields : List (JsString × JsonTree ι),
      ¬ (keys fields).any isReservedName = true →
      ∀ key ∈ keys fields,
        Path.hasReserved (path ++ [Seg.key key]) = false := by
    intro fields hfields key hkey
    rw [hasReserved_append, hsafe, Bool.false_or]
    have hname : isReservedName key = false := by
      rw [List.any_eq_true, not_exists] at hfields
      simpa [hkey] using hfields key
    simpa [Path.hasReserved, Seg.isReserved, isReservedName] using hname
  have hnodup := ((strict_obj_iff _ _).mp hcompare.after_strict).1
  obtain ⟨fields, hfields, hfieldsSpec⟩ := diffFields_spec
    (hkeySafe after hreserved.2) hnodup hvalue batch
  simp only [hfields, bind_eq_bind, bind_some]
  split
  next hover =>
    refine ⟨fields, rfl, fun hfine => ?_⟩
    rw [hover] at hfine
    simp at hfine
  refine ⟨_, rfl, hfieldsSpec.trans (deleteFields_spec (hkeySafe before hreserved.1) fields) ?_⟩
  intro front back hfront hback
  refine Or.inr ⟨hfront.1.append hback.1, ?_⟩
  intro root hget
  obtain ⟨merged, hmerged, hothers, hrun⟩ :=
    hfront.2 root mark before (fun _ _ => rfl) hget
  obtain ⟨result, hresult, hrun'⟩ := hback.2 _ mark merged
    (getAt_replaceAt hget _)
  refine ⟨.obj mark result, ?_, ?_⟩
  · -- a key of `after` was written, any other key is gone
    have hkeep : ∀ key ∈ keys after,
        get key result = get key merged := by
      intro key hkey
      rw [hresult key, if_neg (by simp [hkey])]
    have hdrop : ∀ key, key ∉ keys after →
        get key result = none := by
      intro key hkey
      rw [hresult key]
      split
      · rfl
      next hlisted =>
        rw [hothers key hkey, get_eq_none_iff]
        exact fun hmem => hlisted ⟨hmem, hkey⟩
    refine .obj (fun key => ?_) fun key value value' hget hget' => ?_
    · rw [Bool.eq_iff_iff, get_isSome_iff key after]
      constructor
      · intro hsome
        by_contra hkey
        rw [hdrop key hkey] at hsome
        simp at hsome
      intro hkey
      obtain ⟨field, hfield, rfl⟩ := mem_map.mp hkey
      obtain ⟨value, hvalue, -⟩ := hmerged field hfield
      rw [hkeep _ hkey, hvalue]
      rfl
    have hmem := mem_of_get_eq_some hget'
    have hkey : key ∈ keys after :=
      mem_map.mpr ⟨_, hmem, rfl⟩
    obtain ⟨written, hwritten, hsame⟩ := hmerged _ hmem
    rw [hkeep key hkey, hwritten] at hget
    exact some.inj hget ▸ hsame
  · rw [applyOps_append hrun, hrun', replaceAt_replaceAt hget]

end Objects

/-! ### Values -/

omit [DecidableEq ι] in
theorem depth_le_depthItems {item : JsonTree ι} {items : List (JsonTree ι)}
    (hitem : item ∈ items) : depth item ≤ depthItems items := by
  induction items with
  | nil => simp at hitem
  | cons head rest ih =>
    rw [depthItems]
    rcases mem_cons.mp hitem with rfl | hrest
    · exact Nat.le_max_left _ _
    · exact (ih hrest).trans (Nat.le_max_right _ _)

omit [DecidableEq ι] in
theorem depth_le_depthFields {field : JsString × JsonTree ι}
    {fields : List (JsString × JsonTree ι)} (hfield : field ∈ fields) :
    depth field.2 ≤ depthFields fields := by
  induction fields with
  | nil => simp at hfield
  | cons head rest ih =>
    rw [depthFields]
    rcases mem_cons.mp hfield with rfl | hrest
    · exact Nat.le_max_left _ _
    · exact (ih hrest).trans (Nat.le_max_right _ _)

/-- Fuel for the depth of the earlier value is enough. -/
theorem diffValue_spec {before after : JsonTree ι} {fuel : Nat}
    (hfuel : depth before ≤ fuel) (hcompare : Comparable before after)
    {path : Path} (hsafe : Path.hasReserved path = false) (batch : Batch ι) :
    ∃ batch', diffValue fuel before after path batch = some batch' ∧
      Extends batch batch' (ValueSpec before after path) := by
  induction fuel generalizing before after path batch with
  | zero => cases before <;> simp [depth] at hfuel
  | succ fuel ih =>
    have hset : ∃ batch', some (emitSet path after batch) = some batch' ∧
        Extends batch batch' (ValueSpec before after path) :=
      ⟨_, rfl, extends_emitSet hsafe batch⟩
    simp only [diffValue]
    split
    next hdone =>
      refine ⟨batch, rfl, ?_⟩
      rcases hdone with hidentity | hover
      · exact Extends.nothing (valueSpec_nil (hcompare.same hidentity) path)
          batch
      · exact Extends.overflowed hover _
    split
    · split
      · exact hset
      next hne =>
        exact ⟨_, rfl, extends_emitString (by simpa using hne) hsafe batch⟩
    · refine diffArray_spec hsafe ?_ hcompare batch
      intro left hleft right hright at_ batch
      have hdepth := depth_le_depthItems hleft
      rw [depth] at hfuel
      refine ih (hdepth.trans (Nat.le_of_succ_le_succ hfuel))
        (hcompare.items hleft hright) ?_ batch
      rw [hasReserved_append, hsafe]
      rfl
    · refine diffObject_spec hsafe ?_ hcompare batch
      intro key left right hleft hright hkey batch
      have hdepth := depth_le_depthFields
        (mem_of_get_eq_some hleft)
      rw [depth] at hfuel
      have hnodup :=
        ((strict_obj_iff _ _).mp hcompare.after_strict).1
      exact ih (hdepth.trans (Nat.le_of_succ_le_succ hfuel))
        (hcompare.fields hleft (get_eq_some_of_mem hnodup hright)) hkey batch
    · exact hset

/-! ### Revisions -/

omit [DecidableEq ι] in
theorem applyOps_erase {root result : JsonTree ι} {ops : List (Op ι)}
    (hok : applyOps root ops = .ok result) :
    applyOps root.erase (ops.map Op.erase) = .ok result.erase := by
  induction ops generalizing root with
  | nil =>
    cases hok
    rfl
  | cons op rest ih =>
    obtain ⟨middle, hmiddle, hrest⟩ :=
      (foldlM_except_cons_eq_ok_iff _ _ _ _ _).mp hok
    rw [applyOps, map_cons, foldlM_except_cons_eq_ok_iff]
    exact ⟨middle.erase, (applyOp_erase_eq_ok_iff root op _).mpr ⟨middle, hmiddle, rfl⟩, ih hrest⟩

/-- What a batch of `diffRevisions` does to the earlier revision. -/
theorem diffRevisions_spec {before after : JsonTree ι} (hcompare : Comparable before after) :
    ∃ ops, diffRevisions before after = some ops ∧ ValueSpec before after [] ops := by
  obtain ⟨batch, hbatch, hspec⟩ :=
    diffValue_spec le_rfl hcompare (show Path.hasReserved [] = false from rfl)
      Batch.empty
  have hreplace : ValueSpec before after [] [.r after] := Or.inl ⟨rfl, rfl⟩
  simp only [diffRevisions, hbatch, bind_eq_bind, bind_some]
  split
  · exact ⟨_, rfl, hreplace⟩
  rename_i hfine
  obtain ⟨-, added, hadded, hvalue⟩ := hspec (by simpa using hfine)
  have hops : ValueSpec before after [] batch.ops := by
    rw [hadded]
    exact hvalue
  split
  · exact ⟨_, rfl, hops⟩
  split
  · exact ⟨_, rfl, hops⟩
  split
  · exact ⟨_, rfl, hreplace⟩
  · exact ⟨_, rfl, hops⟩

/-- The batch from one revision to another replays on the earlier one without
an error and gives the later one; a replacement stands at its start only. -/
theorem diffRevisions_sound (before after : JsonTree ι)
    (hbefore : before.Strict) (hafter : after.Strict) (hidentity : IdentitySound before after) :
    ∃ ops, diffRevisions before after = some ops ∧
      (∃ result, applyImmutable before.erase (ops.map Op.erase) = .ok result ∧
        JsonTree.SameValue result after.erase) ∧
      ∀ i op, ops[i]? = some op → isReplace op = true → i = 0 := by
  obtain ⟨ops, hops, hspec⟩ :=
    diffRevisions_spec ⟨hbefore, hafter, hidentity⟩
  refine ⟨ops, hops, ?_, ?_⟩
  · have hrun : ∃ result, applyOps before ops = .ok result ∧
        JsonTree.SameValue result after := by
      rcases hspec with ⟨-, rfl⟩ | ⟨-, hrewrite⟩
      · exact ⟨after, applyOps_singleton before _, .refl after⟩
      · obtain ⟨result, hsame, hok⟩ := hrewrite before rfl
        exact ⟨result, hok, hsame⟩
    obtain ⟨result, hok, hsame⟩ := hrun
    refine ⟨result.erase, ?_, ?_⟩
    · rw [applyImmutable, applyImmutableBatches_eq_ok_iff, flatten_singleton]
      exact applyOps_erase hok
    · exact (sameValue_erase result).symm.trans
        (hsame.trans (sameValue_erase after))
  intro i op hop hreplace
  rcases hspec with ⟨-, rfl⟩ | ⟨hnone, -⟩
  · by_contra hi
    obtain ⟨j, rfl⟩ := Nat.exists_eq_succ_of_ne_zero hi
    simp at hop
  · rw [hnone op (mem_of_getElem? hop)] at hreplace
    simp at hreplace

/-- Two revisions that share no container. -/
theorem identitySound_unshared (before after : JsonValue) :
    IdentitySound (before.mapMark fun _ => false)
      (after.mapMark fun _ => true) := by
  intro path path' left right hleft hright hidentity
  rw [getAt_mapMark] at hleft hright
  obtain ⟨left, -, rfl⟩ := map_eq_some_iff.mp hleft
  obtain ⟨right, -, rfl⟩ := map_eq_some_iff.mp hright
  cases left <;> cases right <;>
    simp_all [identity, JsonTree.mapMark, JsonTree.SameValue.refl]

/-- An element moves out of a list and a text grows. -/
theorem diffRevisions_sound_movedElement :
    let before : JsonTree Bool := .obj false
      [(js ['a'], .arr false [.num 1, .num 2, .num 3]), (js ['b'], .str (js ['x']))]
    let after : JsonTree Bool := .obj true
      [(js ['b'], .str (js ['x', 'y'])), (js ['a'], .arr true [.num 2, .num 3])]
    before.Strict ∧ after.Strict ∧ ∃ ops, diffRevisions before after = some ops ∧
      ∃ result, applyImmutable before.erase (ops.map Op.erase) = .ok result ∧
        JsonTree.SameValue result after.erase := by
  intro before after
  have hbefore : before.Strict := by decide
  have hafter : after.Strict := by decide
  obtain ⟨ops, hops, happly, -⟩ := diffRevisions_sound before after hbefore hafter
    (identitySound_unshared (.obj () [(js ['a'], .arr () [.num 1, .num 2, .num 3]),
        (js ['b'], .str (js ['x']))])
      (.obj () [(js ['b'], .str (js ['x', 'y'])), (js ['a'], .arr () [.num 2, .num 3])]))
  exact ⟨hbefore, hafter, ops, hops, happly⟩

end Delta

end Hummin
