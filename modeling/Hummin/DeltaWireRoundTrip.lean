/-
Decoding what an encoder wrote.  The two dictionaries evolve independently; they
agree in the only direction that matters: every id the encoder may refer to
stands for the same path in the decoder.  A replacement establishes the
agreement from any decoder, which is what makes a base batch a recovery point.
-/
import Mathlib.Data.List.SplitLengths
import Hummin.DeltaWireTuple

namespace Hummin.Delta

open List PropertyList

/-! ### Path keys -/

variable {rest : JsString}

theorem takeWhile_decimal (n : Nat)
    (hrest : rest.head?.all fun unit => !isDigitUnit unit) :
    (decimal n ++ rest).takeWhile isDigitUnit = decimal n := by
  rw [takeWhile_append_of_pos fun unit hunit =>
    isDigitUnit_of_mem_decimal hunit]
  cases rest with
  | nil => simp
  | cons unit tail =>
    rw [takeWhile_cons_of_neg (by simpa using hrest), append_nil]

/-- A segment's text determines the segment and where it ends. -/
theorem segmentText_append_inj {left right : Seg} {rest' : JsString}
    (hrest : rest.head?.all fun unit => !isDigitUnit unit)
    (hrest' : rest'.head?.all fun unit => !isDigitUnit unit)
    (heq : segmentText left ++ rest = segmentText right ++ rest') :
    left = right ∧ rest = rest' := by
  have hquote : ∀ (name : JsString) (n : Nat) (back back' : JsString),
      JsonQuote.quote name ++ back ≠ decimal n ++ back' := by
    intro name n back back' hmixed
    obtain ⟨unit, tail, hunit⟩ :=
      exists_cons_of_ne_nil (decimal_ne_nil n)
    rw [hunit] at hmixed
    simp only [JsonQuote.quote, cons_append, cons.injEq] at hmixed
    have hdigit : isDigitUnit unit = true :=
      isDigitUnit_of_mem_decimal (n := n) (by simp [hunit])
    rw [← hmixed.1] at hdigit
    cases hdigit
  cases left with
  | key name =>
    cases right with
    | key name' =>
      obtain ⟨rfl, hback⟩ := JsonQuote.quote_append_inj heq
      exact ⟨rfl, hback⟩
    | index n => exact absurd heq (hquote name n rest rest')
  | index n =>
    cases right with
    | key name' => exact absurd heq.symm (hquote name' n rest' rest)
    | index n' =>
      have htake := takeWhile_decimal n hrest
      have htake' := takeWhile_decimal n' hrest'
      simp only [segmentText] at heq
      rw [heq, htake'] at htake
      obtain rfl := decimal_injective htake
      exact ⟨rfl, append_cancel_left heq⟩

theorem pathKeyTail_head (path : Path) :
    (pathKeyTail path).head?.all fun unit => !isDigitUnit unit := by
  cases path with
  | nil => decide
  | cons seg rest =>
    simp only [pathKeyTail, head?_cons, Option.all_some]
    decide

theorem pathKeyTail_injective {left right : Path}
    (heq : pathKeyTail left = pathKeyTail right) : left = right := by
  induction left generalizing right with
  | nil =>
    cases right with
    | nil => rfl
    | cons seg rest => simp [pathKeyTail] at heq
  | cons seg rest ih =>
    cases right with
    | nil => simp [pathKeyTail] at heq
    | cons seg' rest' =>
      simp only [pathKeyTail, cons.injEq, true_and] at heq
      obtain ⟨rfl, hrest⟩ := segmentText_append_inj (pathKeyTail_head rest)
        (pathKeyTail_head rest') heq
      rw [ih hrest]

/-- No segment's text starts with the closing bracket. -/
theorem segmentText_append_ne (seg : Seg) (rest rest' : JsString) :
    segmentText seg ++ rest ≠ 93 :: rest' := by
  intro heq
  cases seg with
  | key name => simp [segmentText, JsonQuote.quote] at heq
  | index n =>
    obtain ⟨unit, tail, hunit⟩ :=
      exists_cons_of_ne_nil (decimal_ne_nil n)
    have hdigit : isDigitUnit unit = true :=
      isDigitUnit_of_mem_decimal (n := n) (by simp [hunit])
    rw [segmentText, hunit, cons_append, cons.injEq] at heq
    rw [heq.1] at hdigit
    cases hdigit

/-- Distinct paths have distinct keys. -/
theorem pathKey_injective {left right : Path}
    (heq : pathKey left = pathKey right) : left = right := by
  cases left with
  | nil =>
    cases right with
    | nil => rfl
    | cons seg rest =>
      simp only [pathKey, cons.injEq, true_and] at heq
      exact absurd heq.symm (segmentText_append_ne seg _ _)
  | cons seg rest =>
    cases right with
    | nil =>
      simp only [pathKey, cons.injEq, true_and] at heq
      exact absurd heq (segmentText_append_ne seg _ _)
    | cons seg' rest' =>
      simp only [pathKey, cons.injEq, true_and] at heq
      obtain ⟨rfl, hrest⟩ := segmentText_append_inj (pathKeyTail_head rest)
        (pathKeyTail_head rest') heq
      rw [pathKeyTail_injective hrest]

/-! ### The agreement of the two dictionaries -/

/-- Every id the encoder may refer to is below the next one and stands for the
same path in the decoder. -/
structure Agrees (state : Encoder) (paths : Decoder) : Prop where
  id_lt : ∀ (key : JsString) (id : Nat),
    PropertyList.get key state.ids = some id → id < state.nextId
  path_eq : ∀ (path : Path) (id : Nat),
    PropertyList.get (pathKey path) state.ids = some id →
      PropertyList.get id paths = some path

/-- The path the encoder may omit is the decoder's previous one. -/
def PreviousAgrees (key : Option JsString) (previous : Option Path) : Prop :=
  ∀ path, key = some (pathKey path) → previous = some path

theorem agrees_encoder (paths : Decoder) : Agrees encoder paths where
  id_lt key id hget := by simp [encoder] at hget
  path_eq path id hget := by simp [encoder] at hget

variable {state : Encoder} {paths : Decoder} (previous : Option Path)

theorem previousAgrees_none : PreviousAgrees none previous := by
  intro path hpath
  simp at hpath

theorem previousAgrees_some (path : Path) : PreviousAgrees (some (pathKey path)) (some path) := by
  intro other hother
  rw [pathKey_injective (Option.some.inj hother)]

theorem get_append_new {key : JsString} {ids : List (JsString × Nat)}
    (hnone : PropertyList.get key ids = none) (id : Nat) (other : JsString) :
    PropertyList.get other (ids ++ [(key, id)]) =
      if other = key then some id else PropertyList.get other ids := by
  induction ids with
  | nil =>
    rcases eq_or_ne other key with rfl | hne
    · simp
    · simp [PropertyList.get, hne, hne.symm]
  | cons field rest ih =>
    obtain ⟨name, value⟩ := field
    have hname : name ≠ key := by
      rintro rfl
      simp at hnone
    rw [get_cons_of_ne hname] at hnone
    rw [cons_append, get_cons, get_cons, ih hnone]
    rcases eq_or_ne other key with rfl | hne
    · simp [hname]
    · simp [hne]

variable {path : Path}

/-- Defining the next id on both sides keeps the agreement. -/
theorem Agrees.define (hagrees : Agrees state paths)
    (hnone : get (pathKey path) state.ids = none) :
    Agrees { state with
      ids := state.ids ++ [(pathKey path, state.nextId)]
      nextId := state.nextId + 1 } (paths.set state.nextId path) where
  id_lt key id hget := by
    rw [get_append_new hnone] at hget
    split at hget
    · cases hget
      exact Nat.lt_succ_self _
    · exact Nat.lt_succ_of_lt (hagrees.id_lt key id hget)
  path_eq other id hget := by
    rw [get_append_new hnone] at hget
    rw [Decoder.set, get_put]
    split at hget
    next hkey =>
      cases hget
      rw [pathKey_injective hkey, if_pos rfl]
    · have hlt := hagrees.id_lt _ id hget
      rw [if_neg (ne_of_lt hlt)]
      exact hagrees.path_eq other id hget

/-! ### Runs -/

variable {op : Op Unit}

variable {change : Edit}

theorem Op.split_eq_some (hsplit : op.split = some (path, change)) :
    op = change.at path ∧ op.path = path := by
  cases op with
  | r value => simp [Op.split] at hsplit
  | s | d | a | t | p | m =>
    obtain ⟨rfl, rfl⟩ := hsplit
    exact ⟨rfl, rfl⟩

theorem Op.Valid.edit (hvalid : op.Valid) (hsplit : op.split = some (path, change)) :
    change.Valid ∧ (change.mayTargetRoot = true ∨ path ≠ []) := by
  cases op with
  | r value => simp [Op.split] at hsplit
  | s | d | a | t =>
    have hne := hvalid.path_ne_nil rfl
    obtain ⟨rfl, rfl⟩ := hsplit
    exact ⟨trivial, Or.inr hne⟩
  | p path' index remove items =>
    obtain ⟨rfl, rfl⟩ := hsplit
    exact ⟨trivial, Or.inl rfl⟩
  | m path' permutation =>
    simp only [Op.split, Option.some.injEq, Prod.mk.injEq] at hsplit
    obtain ⟨rfl, rfl⟩ := hsplit
    have hperm := ((valid_m_iff path' permutation).mp hvalid).2
    exact ⟨(assertPermutation_eq_ok_iff permutation).mpr hperm, Or.inl rfl⟩

theorem decodeOps_edit {previous : Option Path}
    (ref : PathRef) (hsafe : ref.Safe)
    (hvalid : change.Valid) (hroot : change.mayTargetRoot = true ∨ path ≠ [])
    (hresolve : resolveRef paths previous ref = .ok path)
    (rest : List JsonValue) :
    decodeOps paths previous ((WireOp.edit ref change).toTuple :: rest) = (do
      let tail ← decodeOps paths (some path) rest
      .ok (tail.1, change.at path :: tail.2)) := by
  have hguard : (!change.mayTargetRoot && path.isEmpty) = false := by
    rcases hroot with hroot | hne
    · simp [hroot]
    · simp [hne]
  rw [decodeOps, decodeOp, readWireOp_edit hsafe hvalid]
  simp only [except_bind_ok, hresolve]
  rw [hguard, if_neg Bool.false_ne_true]
  rfl

theorem decodeOps_define (paths : Decoder) (previous : Option Path) (id : Nat)
    (hsafe : Path.hasReserved path = false) (rest : List JsonValue) :
    decodeOps paths previous ((WireOp.define id path).toTuple :: rest) =
      decodeOps (paths.set id path) previous rest := by
  rw [decodeOps, decodeOp, readWireOp_define id hsafe]
  simp only [except_bind_ok, nil_append]
  cases decodeOps (paths.set id path) previous rest <;> rfl

theorem decodeOps_r (paths : Decoder) (previous : Option Path)
    (value : JsonValue) (rest : List JsonValue) :
    decodeOps paths previous ((WireOp.r value).toTuple :: rest) = (do
      let tail ← decodeOps [] none rest
      .ok (tail.1, .r value :: tail.2)) := by
  rw [decodeOps, decodeOp, readWireOp_r]
  rfl

variable {key : Option JsString}

/-- One operation: the decoder reads back what the encoder pushed for it, and
the dictionaries still agree.  A replacement needs no agreement before it. -/
theorem decodeOps_encodeOp {previous : Option Path} {op : Op Unit}
    (hvalid : op.Valid)
    (hagrees : isReplace op = true ∨ Agrees state paths ∧ PreviousAgrees key previous) :
    ∃ paths' previous', Agrees (encodeOp state key op).1.1 paths' ∧
      PreviousAgrees (encodeOp state key op).1.2 previous' ∧
      ∀ rest, decodeOps paths previous
          ((encodeOp state key op).2.map WireOp.toTuple ++ rest) = (do
        let tail ← decodeOps paths' previous' rest
        .ok (tail.1, op :: tail.2)) := by
  cases hsplit : op.split with
  | none =>
    cases op with
    | r value =>
      exact ⟨[], none, agrees_encoder [], previousAgrees_none none,
        fun rest => decodeOps_r paths previous value rest⟩
    | s | d | a | t | p | m => simp [Op.split] at hsplit
  | some pair =>
    obtain ⟨path, change⟩ := pair
    obtain ⟨hop, hpath⟩ := Op.split_eq_some hsplit
    obtain ⟨hchange, hroot⟩ := hvalid.edit hsplit
    have hsafe : Path.hasReserved path = false := hpath ▸ hvalid.safe
    have hnotr : isReplace op = false := by
      cases op with
      | r value => simp [Op.split] at hsplit
      | s | d | a | t | p | m => rfl
    rw [hnotr, Bool.false_eq_true, false_or] at hagrees
    obtain ⟨hagrees, hprevious⟩ := hagrees
    have hencode : encodeOp state key op = _ := encodeOp.eq_2 state key op
      (by rintro value rfl; simp [isReplace] at hnotr)
    rw [hencode, hsplit]
    simp only
    split
    next homit =>
      refine ⟨paths, previous, hagrees, hprevious, fun rest => ?_⟩
      have hsome := hprevious path homit
      rw [hop, hsome]
      exact decodeOps_edit .omitted trivial hchange hroot rfl rest
    split
    next id hget =>
      refine ⟨paths, some path, hagrees, previousAgrees_some path, fun rest => ?_⟩
      rw [hop]
      apply decodeOps_edit (.id id) trivial hchange hroot
      rw [resolveRef, hagrees.path_eq path id hget]
    rename_i hnone
    split
    · refine ⟨paths.set state.nextId path, some path,
        hagrees.define hnone, previousAgrees_some path, fun rest => ?_⟩
      rw [map_cons, cons_append, decodeOps_define _ _ _ hsafe, hop]
      apply decodeOps_edit (.id state.nextId) trivial hchange hroot
      rw [resolveRef, Decoder.set, get_put_self]
    refine ⟨paths, some path, ⟨hagrees.id_lt, hagrees.path_eq⟩,
      previousAgrees_some path, fun rest => ?_⟩
    rw [hop]
    exact decodeOps_edit (.inline path) hsafe hchange hroot rfl rest

/-- A batch, read before anything: its operations come back, and the
dictionaries agree after it. -/
theorem decodeOps_encodeOps {previous : Option Path} {ops : List (Op Unit)}
    (hvalid : ∀ op ∈ ops, op.Valid)
    (hagrees : isBase ops = true ∨ Agrees state paths ∧ PreviousAgrees key previous) :
    ∃ paths' previous', Agrees (encodeOps state key ops).1 paths' ∧
      ∀ rest, decodeOps paths previous
          ((encodeOps state key ops).2.map WireOp.toTuple ++ rest) = (do
        let tail ← decodeOps paths' previous' rest
        .ok (tail.1, ops ++ tail.2)) := by
  induction ops generalizing state paths key previous with
  | nil =>
    rcases hagrees with hbase | ⟨hagrees, -⟩
    · simp [isBase] at hbase
    refine ⟨paths, previous, hagrees, fun rest => ?_⟩
    simp only [encodeOps, map_nil, nil_append]
    cases decodeOps paths previous rest <;> rfl
  | cons op tail ih =>
    have hstart : isReplace op = true ∨
        Agrees state paths ∧ PreviousAgrees key previous := by
      simpa [isBase] using hagrees
    obtain ⟨middle, previous', hmiddle, hprevious, hop⟩ :=
      decodeOps_encodeOp (hvalid op mem_cons_self) hstart
    obtain ⟨paths', last, hpaths, htail⟩ :=
      ih (fun other hother => hvalid other (mem_cons_of_mem _ hother))
        (Or.inr ⟨hmiddle, hprevious⟩)
    refine ⟨paths', last, hpaths, fun rest => ?_⟩
    simp only [encodeOps, map_append, append_assoc]
    rw [hop, htail]
    cases decodeOps paths' last rest <;> rfl

theorem encodeBatches_append (state : Encoder) (front back : List (List (Op Unit))) :
    encodeBatches state (front ++ back) =
      ((encodeBatches (encodeBatches state front).1 back).1, (encodeBatches state front).2 ++
          (encodeBatches (encodeBatches state front).1 back).2) := by
  induction front generalizing state with
  | nil => rfl
  | cons batch rest ih =>
    simp only [cons_append, encodeBatches, ih]

theorem length_encodeBatches (state : Encoder) (batches : List (List (Op Unit))) :
    (encodeBatches state batches).2.length = batches.length := by
  induction batches generalizing state with
  | nil => rfl
  | cons batch rest ih => simp [encodeBatches, ih]

variable {batches : List (List (Op Unit))}

/-- A run of encoded batches concatenated into one wire batch: the decoder
gives the concatenation of the original batches. -/
theorem decodeOps_encodeBatches (hvalid : ∀ batch ∈ batches, ∀ op ∈ batch, op.Valid)
    (hagrees : batches.head?.any isBase = true ∨ Agrees state paths) :
    ∃ paths', Agrees (encodeBatches state batches).1 paths' ∧
      decodeOps paths previous (encodeBatches state batches).2.flatten =
        .ok (paths', batches.flatten) := by
  induction batches generalizing state paths previous with
  | nil =>
    rcases hagrees with hbase | hagrees
    · simp at hbase
    · exact ⟨paths, hagrees, rfl⟩
  | cons batch rest ih =>
    have hstart : isBase batch = true ∨
        Agrees state paths ∧ PreviousAgrees none previous := by
      rcases hagrees with hbase | hagrees
      · exact Or.inl (by simpa using hbase)
      · exact Or.inr ⟨hagrees, previousAgrees_none previous⟩
    obtain ⟨middle, previous', hmiddle, hbatch⟩ :=
      decodeOps_encodeOps (hvalid batch mem_cons_self) hstart
    obtain ⟨paths', hpaths, htail⟩ := ih previous'
      (fun other hother => hvalid other (mem_cons_of_mem _ hother))
      (Or.inr hmiddle)
    refine ⟨paths', hpaths, ?_⟩
    simp only [encodeBatches, Encoder.encode, flatten_cons]
    rw [hbatch, htail]
    rfl

/-- Every way of coalescing consecutive wire batches decodes to the original
batches coalesced the same way. -/
theorem decodeBatches_coalesced (sizes : List Nat) (hsizes : sizes.sum = batches.length)
    (hvalid : ∀ batch ∈ batches, ∀ op ∈ batch, op.Valid)
    (hagrees : batches.head?.any isBase = true ∨ Agrees state paths) :
    decodeBatches paths
        ((sizes.splitLengths (encodeBatches state batches).2).map flatten) =
      .ok ((sizes.splitLengths batches).map flatten) := by
  induction sizes generalizing state paths batches with
  | nil => rfl
  | cons size sizes ih =>
    have hwire : encodeBatches state batches =
        encodeBatches state (batches.take size ++ batches.drop size) := by
      rw [take_append_drop]
    rw [encodeBatches_append] at hwire
    have hlength := length_encodeBatches state (batches.take size)
    simp only [sum_cons] at hsizes
    have hsize : (batches.take size).length = size := by
      rw [length_take]
      omega
    rw [hsize] at hlength
    simp only [splitLengths_cons, map_cons, decodeBatches, hwire]
    rw [take_left' hlength, drop_left' hlength]
    have hfront : ∀ batch ∈ batches.take size, ∀ op ∈ batch, op.Valid :=
      fun batch hbatch => hvalid batch (mem_of_mem_take hbatch)
    have hback : ∀ batch ∈ batches.drop size, ∀ op ∈ batch, op.Valid :=
      fun batch hbatch => hvalid batch (mem_of_mem_drop hbatch)
    rcases Nat.eq_zero_or_pos size with rfl | hpos
    · -- an empty run decodes to an empty batch and moves nothing
      rw [Nat.zero_add] at hsizes
      have htail := ih hsizes hvalid hagrees
      simp only [take_zero, drop_zero, encodeBatches, flatten_nil]
      rw [Decoder.decode, decodeOps, except_bind_ok, htail]
      rfl
    have hstart : (batches.take size).head?.any isBase = true ∨
        Agrees state paths := by
      rcases hagrees with hbase | hagrees
      · rw [head?_take, if_neg (Nat.pos_iff_ne_zero.mp hpos)]
        exact Or.inl hbase
      · exact Or.inr hagrees
    obtain ⟨middle, hmiddle, hrun⟩ :=
      decodeOps_encodeBatches none hfront hstart
    have htail := ih (by rw [length_drop]; omega) hback
      (Or.inr hmiddle)
    rw [Decoder.decode, hrun, except_bind_ok, htail]
    rfl

theorem map_flatten_splitLengths_ones {V : Type} (batches : List (List V)) :
    ((replicate batches.length 1).splitLengths batches).map flatten = batches := by
  induction batches with
  | nil => rfl
  | cons batch rest ih =>
    simp only [length_cons, replicate_succ, splitLengths_cons, take_succ_cons, take_zero,
      drop_succ_cons, drop_zero, map_cons,
      flatten_cons, flatten_nil, append_nil, ih]

/-- The wire codec round trip over streams.  A decoder that starts with the
stream, or afresh at a base batch, reads back the batches from there on, and it
does so however consecutive wire batches were concatenated. -/
theorem decodeBatches_encodeBatches (batches : List (List (Op Unit)))
    (hvalid : ∀ batch ∈ batches, ∀ op ∈ batch, op.Valid) :
    decodeBatches decoder (encodeBatches encoder batches).2 = .ok batches ∧
    ∀ front back, batches = front ++ back →
      front = [] ∨ back.head?.any isBase = true →
      decodeBatches decoder
          ((encodeBatches encoder batches).2.drop front.length) = .ok back ∧
      ∀ sizes : List Nat, sizes.sum = back.length →
        decodeBatches decoder ((sizes.splitLengths
            ((encodeBatches encoder batches).2.drop front.length)).map
              List.flatten) =
          .ok ((sizes.splitLengths back).map List.flatten) := by
  have hcoalesced : ∀ front back, batches = front ++ back →
      front = [] ∨ back.head?.any isBase = true →
      ∀ sizes : List Nat, sizes.sum = back.length →
        decodeBatches decoder ((sizes.splitLengths
            ((encodeBatches encoder batches).2.drop front.length)).map
              List.flatten) =
          .ok ((sizes.splitLengths back).map List.flatten) := by
    intro front back hsplit hstart sizes hsizes
    subst hsplit
    rw [encodeBatches_append, drop_left' (length_encodeBatches encoder front)]
    apply decodeBatches_coalesced sizes hsizes
    · exact fun batch hbatch => hvalid batch (mem_append_right _ hbatch)
    · rcases hstart with rfl | hbase
      · exact Or.inr (agrees_encoder decoder)
      · exact Or.inl hbase
  have hplain : ∀ front back, batches = front ++ back →
      front = [] ∨ back.head?.any isBase = true →
      decodeBatches decoder
          ((encodeBatches encoder batches).2.drop front.length) =
        .ok back := by
    intro front back hsplit hstart
    have hones := hcoalesced front back hsplit hstart
      (List.replicate back.length 1) (by simp)
    rw [map_flatten_splitLengths_ones] at hones
    have hlength : back.length =
        ((encodeBatches encoder batches).2.drop front.length).length := by
      rw [length_drop, length_encodeBatches, hsplit]
      simp
    rwa [hlength, map_flatten_splitLengths_ones] at hones
  refine ⟨by simpa using hplain [] batches rfl (Or.inl rfl), ?_⟩
  intro front back hsplit hstart
  exact ⟨hplain front back hsplit hstart, hcoalesced front back hsplit hstart⟩

/-- A stream that interns a path, omits it, resets and joins at the reset. -/
theorem decodeBatches_encodeBatches_resetStream :
    let path : Path := [.key (js ['a']), .index 0]
    let batches : List (List (Op Unit)) :=
      [[.s path .null, .d path], [.t path 1, .r (.arr () []), .p [] 0 0 [.null]],
        [.r .null, .a path (js ['x'])]]
    decodeBatches decoder (encodeBatches encoder batches).2 = .ok batches ∧
      decodeBatches decoder ((encodeBatches encoder batches).2.drop 2) =
        .ok [[.r .null, .a path (js ['x'])]] := by
  intro path batches
  have hround := decodeBatches_encodeBatches batches (by decide)
  exact ⟨hround.1, (hround.2 (batches.take 2) (batches.drop 2) rfl (Or.inr rfl)).1⟩

end Hummin.Delta
