/-
Arbitrary JSON fed to a decoder.  Every path the dictionary holds has passed the
path check, so every operation that leaves the decoder is valid, whatever was
sent before and however often a batch was rejected half-way.
-/
import Hummin.DeltaImmutable
import Hummin.DeltaWireTuple

namespace Hummin.Delta

open List

/-- The dictionary a batch leaves behind, also when it throws. -/
def pathsAfter : Decoder → Option Path → List JsonValue → Decoder
  | paths, _, [] => paths
  | paths, previous, op :: rest =>
    match decodeOp paths previous op with
    | .ok round => pathsAfter round.1.1 round.1.2 rest
    | .error _ => paths

/-- What one decoder returns or throws for each batch it is fed. -/
def feed : Decoder → List (List JsonValue) →
    List (Except Failure (List (Op Unit)))
  | _, [] => []
  | paths, wire :: rest =>
    (paths.decode wire).map Prod.snd :: feed (pathsAfter paths none wire) rest

/-! ### The dictionary invariant -/

/-- Every path of the dictionary passes the path check. -/
def Decoder.Safe (paths : Decoder) : Prop :=
  ∀ id path, PropertyList.get id paths = some path →
    Path.hasReserved path = false

def PreviousSafe (previous : Option Path) : Prop :=
  ∀ path, previous = some path → Path.hasReserved path = false

theorem decoder_safe : decoder.Safe := by
  intro id path hget
  simp [decoder] at hget

theorem previousSafe_none : PreviousSafe none := by
  intro path hpath
  simp at hpath

variable {path : Path}

theorem previousSafe_some (hsafe : Path.hasReserved path = false) : PreviousSafe (some path) := by
  intro other hother
  rw [← Option.some.inj hother]
  exact hsafe

variable {paths : Decoder}

theorem Decoder.Safe.set (hsafe : paths.Safe) (id : Nat) (hpath : Path.hasReserved path = false) :
    (paths.set id path).Safe := by
  intro other found hget
  rw [Decoder.set, PropertyList.get_put] at hget
  split at hget
  · rw [← Option.some.inj hget]
    exact hpath
  · exact hsafe other found hget

variable {previous : Option Path}

theorem hasReserved_of_resolveRef (hpaths : paths.Safe) (hprevious : PreviousSafe previous)
    {ref : PathRef} (href : ref.Safe) (hresolve : resolveRef paths previous ref = .ok path) :
    Path.hasReserved path = false := by
  cases ref with
  | inline inner =>
    cases hresolve
    exact href
  | id number =>
    rw [resolveRef] at hresolve
    split at hresolve
    next found hget =>
      obtain rfl := Except.ok.inj hresolve
      exact hpaths number found hget
    · simp at hresolve
  | omitted =>
    cases previous with
    | none => simp [resolveRef] at hresolve
    | some found =>
      obtain rfl := Except.ok.inj hresolve
      exact hprevious found rfl

theorem Edit.valid_at {change : Edit} (hvalid : change.Valid)
    (hsafe : Path.hasReserved path = false) (hroot : change.mayTargetRoot = true ∨ path ≠ []) :
    (change.at path).Valid := by
  cases change with
  | s | d | a | t =>
    have hne : path ≠ [] := by simpa [Edit.mayTargetRoot] using hroot
    exact (assertPathArg_eq_ok_iff path true).mpr ⟨fun _ => hne, hsafe⟩
  | p index remove items =>
    exact (assertPathArg_eq_ok_iff path false).mpr ⟨by simp, hsafe⟩
  | m permutation =>
    exact (valid_m_iff path permutation).mpr
      ⟨hsafe, (assertPermutation_eq_ok_iff permutation).mp hvalid⟩

/-- The trees of a wire operation are parts of its tuple. -/
theorem Edit.strict_at {ref : PathRef} {change : Edit}
    (hstrict : (WireOp.edit ref change).toTuple.Strict) (path : Path) :
    (change.at path).Strict := by
  rw [WireOp.toTuple, tuple, JsonTree.strict_arr_iff] at hstrict
  have hpayload : ∀ part ∈ change.payload, part.Strict := by
    intro part hpart
    apply hstrict
    exact mem_cons_of_mem _ (mem_append_right _ hpart)
  cases change with
  | s value => exact hpayload value (by simp [Edit.payload])
  | d | a | t | m => trivial
  | p index remove items =>
    have hitems := hpayload (.arr () items) (by simp [Edit.payload])
    exact (JsonTree.strict_arr_iff () items).mp hitems

/-- One round keeps the dictionary safe and pushes valid operations only. -/
theorem decodeOp_safe (hpaths : paths.Safe) (hprevious : PreviousSafe previous)
    {raw : JsonValue} {round : (Decoder × Option Path) × List (Op Unit)}
    (hok : decodeOp paths previous raw = .ok round) :
    round.1.1.Safe ∧ PreviousSafe round.1.2 ∧
      ∀ op ∈ round.2, op.Valid ∧ (raw.Strict → op.Strict) := by
  rw [decodeOp, except_bind_eq_ok_iff] at hok
  obtain ⟨wire, hread, hok⟩ := hok
  obtain ⟨rfl, hsafe⟩ := toTuple_of_readWireOp hread
  cases wire with
  | define id path =>
    cases hok
    exact ⟨hpaths.set id hsafe, hprevious, by simp⟩
  | r value =>
    cases hok
    refine ⟨decoder_safe, previousSafe_none, ?_⟩
    intro op hop
    obtain rfl := mem_singleton.mp hop
    refine ⟨rfl, fun hstrict => ?_⟩
    rw [WireOp.toTuple, tuple, JsonTree.strict_arr_iff] at hstrict
    exact hstrict value (by simp)
  | edit ref change =>
    rw [except_bind_eq_ok_iff] at hok
    obtain ⟨path, hresolve, hok⟩ := hok
    split at hok
    · simp at hok
    rename_i hroot
    cases hok
    have hpath :=
      hasReserved_of_resolveRef hpaths hprevious hsafe.1 hresolve
    refine ⟨hpaths, previousSafe_some hpath, ?_⟩
    intro op hop
    obtain rfl := mem_singleton.mp hop
    refine ⟨Edit.valid_at hsafe.2 hpath ?_, fun hstrict =>
      Edit.strict_at hstrict path⟩
    cases hmay : change.mayTargetRoot with
    | true => exact Or.inl rfl
    | false =>
      refine Or.inr ?_
      rintro rfl
      simp [hmay] at hroot

theorem decodeOps_safe (hpaths : paths.Safe) (hprevious : PreviousSafe previous)
    {wire : List JsonValue} {result : Decoder × List (Op Unit)}
    (hok : decodeOps paths previous wire = .ok result) :
    ∀ op ∈ result.2, op.Valid ∧ ((∀ raw ∈ wire, raw.Strict) → op.Strict) := by
  induction wire generalizing paths previous result with
  | nil =>
    cases hok
    simp
  | cons raw rest ih =>
    rw [decodeOps, except_bind_eq_ok_iff] at hok
    obtain ⟨round, hround, hok⟩ := hok
    rw [except_bind_eq_ok_iff] at hok
    obtain ⟨tail, htail, hok⟩ := hok
    cases hok
    obtain ⟨hpaths', hprevious', hops⟩ :=
      decodeOp_safe hpaths hprevious hround
    intro op hop
    rcases mem_append.mp hop with hhead | hrest
    · obtain ⟨hvalid, hstrict⟩ := hops op hhead
      exact ⟨hvalid, fun hall => hstrict (hall raw mem_cons_self)⟩
    obtain ⟨hvalid, hstrict⟩ := ih hpaths' hprevious' htail op hrest
    exact ⟨hvalid, fun hall => hstrict fun other hother =>
      hall other (mem_cons_of_mem _ hother)⟩

/-- The dictionary stays safe, also behind a batch that was rejected. -/
theorem pathsAfter_safe (hpaths : paths.Safe) (hprevious : PreviousSafe previous)
    (wire : List JsonValue) : (pathsAfter paths previous wire).Safe := by
  induction wire generalizing paths previous with
  | nil => exact hpaths
  | cons raw rest ih =>
    rw [pathsAfter]
    split
    next round hround =>
      obtain ⟨hpaths', hprevious', -⟩ :=
        decodeOp_safe hpaths hprevious hround
      exact ih hpaths' hprevious'
    · exact hpaths

variable {ops : List (Op Unit)}

theorem feed_safe (hpaths : paths.Safe) {batches : List (List JsonValue)}
    (hops : .ok ops ∈ feed paths batches) :
    ∀ op ∈ ops, op.Valid ∧ ((∀ wire ∈ batches, ∀ raw ∈ wire, raw.Strict) → op.Strict) := by
  induction batches generalizing paths with
  | nil => simp [feed] at hops
  | cons wire rest ih =>
    rw [feed, mem_cons] at hops
    rcases hops with hhead | htail
    · cases hdecode : paths.decode wire with
      | error failure => simp [hdecode, Except.map] at hhead
      | ok result =>
        rw [hdecode] at hhead
        cases hhead
        intro op hop
        obtain ⟨hvalid, hstrict⟩ :=
          decodeOps_safe hpaths previousSafe_none hdecode op hop
        exact ⟨hvalid, fun hall => hstrict (hall wire mem_cons_self)⟩
    intro op hop
    obtain ⟨hvalid, hstrict⟩ :=
      ih (pathsAfter_safe hpaths previousSafe_none wire) htail op hop
    exact ⟨hvalid, fun hall => hstrict fun other hother =>
      hall other (mem_cons_of_mem _ hother)⟩

/-! ### Replicas stay strict JSON -/

theorem applyOps_strict {root result : JsonValue}
    (hroot : root.Strict) (hops : ∀ op ∈ ops, op.Strict)
    (hok : applyOps root ops = .ok result) : result.Strict := by
  induction ops generalizing root with
  | nil =>
    cases hok
    exact hroot
  | cons op rest ih =>
    rw [applyOps, foldlM_except_cons_eq_ok_iff] at hok
    obtain ⟨middle, hmiddle, hrest⟩ := hok
    exact ih (applyOp_strict hroot (hops op mem_cons_self) hmiddle)
      (fun other hother => hops other (mem_cons_of_mem _ hother)) hrest

theorem copyWalk_ne_notJson (whole : Path) (node : JsonTree Bool)
    (rest : Path) : copyWalk whole node rest ≠ .error .notJson := by
  induction rest generalizing node with
  | nil =>
    rw [copyWalk]
    split <;> simp
  | cons seg rest ih =>
    rw [copyWalk]
    split
    · simp
    split
    · simp
    split
    · simp
    rename_i next hchild
    intro herror
    rw [except_bind_eq_error_iff] at herror
    rcases herror with hbelow | ⟨copied, -, herror⟩
    · exact ih next hbelow
    · simp at herror

theorem applyCopied_ne_notJson (root : JsonTree Bool) (op : Op Bool) :
    applyCopied root op ≠ .error .notJson := by
  rw [applyCopied]
  intro herror
  rw [except_bind_eq_error_iff] at herror
  rcases herror with hcopy | ⟨copied, -, herror⟩
  · exact copyWalk_ne_notJson _ root _ hcopy
  · exact applyOp_ne_notJson copied op herror

theorem applyImmutableOp_ne_notJson (root : JsonTree Bool) (op : Op Bool) :
    applyImmutableOp root op ≠ .error .notJson := by
  rw [applyImmutableOp.eq_def]
  intro herror
  rw [except_bind_eq_error_iff] at herror
  rcases herror with hinvalid | ⟨accepted, -, herror⟩
  · exact assertValidOp_ne_notJson op hinvalid
  cases op with
  | r value => simp at herror
  | s | d | a | t | m => exact applyCopied_ne_notJson root _ herror
  | p path index remove items =>
    obtain ⟨appended, happended⟩ :=
      appendCopy_isOk root path index remove items
    simp only [happended, except_bind_ok] at herror
    cases appended with
    | none => exact applyCopied_ne_notJson root _ herror
    | some appended => simp at herror

/-- The immutable applier never writes a hole or a name into an array. -/
theorem applyImmutable_ne_notJson (target : JsonValue) (ops : List (Op Unit)) :
    applyImmutable target ops ≠ .error .notJson := by
  rw [applyImmutable, applyImmutableBatches]
  intro herror
  rw [except_bind_eq_error_iff] at herror
  rcases herror with hfold | ⟨root, -, herror⟩
  · refine foldlM_except_ne_error (fun root ops => ?_) _ _ hfold
    exact foldlM_except_ne_error applyImmutableOp_ne_notJson root _
  · simp at herror

/-- Whatever JSON is fed to a decoder, the operations it returns pass
`assertValidOp`, and applying them to a strict replica throws or gives a strict
value. -/
theorem feed_untrusted (batches : List (List JsonValue))
    (hjson : ∀ wire ∈ batches, ∀ raw ∈ wire, raw.Strict)
    (ops : List (Op Unit)) (hops : .ok ops ∈ feed decoder batches) :
    (∀ op ∈ ops, readOp op.toTuple = .ok op ∧ Path.hasReserved op.path = false ∧
      (op.isLeaf = true → op.path ≠ [])) ∧
    ∀ replica : JsonValue, replica.Strict →
      applyImmutable replica ops ≠ .error .notJson ∧
      ∀ value, applyImmutable replica ops = .ok value → value.Strict := by
  have hall := feed_safe decoder_safe hops
  refine ⟨fun op hop => ?_, fun replica hreplica => ⟨?_, fun value hok => ?_⟩⟩
  · have hvalid := (hall op hop).1
    exact ⟨readOp_toTuple hvalid, hvalid.safe, hvalid.path_ne_nil⟩
  · exact applyImmutable_ne_notJson replica ops
  rw [applyImmutable, applyImmutableBatches_eq_ok_iff] at hok
  refine applyOps_strict hreplica (fun op hop => ?_) hok
  rw [flatten_singleton] at hop
  exact (hall op hop).2 hjson

/-- A rejected batch has defined an id; the next batch uses it. -/
theorem feed_untrusted_afterRejection :
    let path : JsonValue := .arr () [.str (js ['a']), .num 0]
    let define : JsonValue := .arr () [.str (js ['#']), .num 7, path]
    let bad : JsonValue := .arr () [.str (js ['d']), .arr () [.num (-1)]]
    let set : JsonValue := .arr () [.str (js ['s']), .num 7, .null]
    let ops : List (Op Unit) := [.s [.key (js ['a']), .index 0] .null]
    feed decoder [[define, bad], [set]] =
        [.error (.unsafePath (.num (-1))), .ok ops] ∧
      ∀ op ∈ ops, readOp op.toTuple = .ok op := by
  intro path define bad set ops
  have hfeed : feed decoder [[define, bad], [set]] =
      [.error (.unsafePath (.num (-1))), .ok ops] := by decide
  have hsafe := feed_untrusted [[define, bad], [set]] (by decide) ops
    (by rw [hfeed]; simp)
  exact ⟨hfeed, fun op hop => (hsafe.1 op hop).1⟩

end Hummin.Delta
