/-
Every alignment ascends.  For the patience search the invariant is over the
candidates' chains: the tails are sorted, and a tail below the position that is
handled next belongs to an earlier element of `after`.
-/
import Hummin.DeltaMatch

namespace Hummin

open List Option PropertyList

variable {ι : Type} [DecidableEq ι]

namespace Delta

/-! ### Ascending pairs -/

variable {beforeAt : Nat}

theorem Aligned.weaken {beforeAt' beforeEnd afterAt afterAt' afterEnd : Nat}
    {matches_ : List ArrayMatch} (haligned : Aligned beforeAt' beforeEnd afterAt' afterEnd matches_)
    (hbefore : beforeAt ≤ beforeAt') (hafter : afterAt ≤ afterAt') :
    Aligned beforeAt beforeEnd afterAt afterEnd matches_ := by
  cases matches_ with
  | nil => exact ⟨hbefore.trans haligned.1, hafter.trans haligned.2⟩
  | cons pair rest =>
    obtain ⟨hb, hbe, ha, hae, hrest⟩ := haligned
    exact ⟨hbefore.trans hb, hbe, hafter.trans ha, hae, hrest⟩

variable {beforeEnd : Nat} {before items : List (JsonTree ι)} {start at_ upto : Nat}
    {after : List (JsonTree ι)} {afterStart high afterAt afterEnd : Nat}
    {matches_ : List ArrayMatch}

theorem Aligned.swap (haligned : Aligned beforeAt beforeEnd afterAt afterEnd matches_) :
    Aligned afterAt afterEnd beforeAt beforeEnd (matches_.map Prod.swap) := by
  induction matches_ generalizing beforeAt afterAt with
  | nil => exact ⟨haligned.2, haligned.1⟩
  | cons pair rest ih =>
    obtain ⟨hb, hbe, ha, hae, hrest⟩ := haligned
    exact ⟨ha, hae, hb, hbe, ih hrest⟩

theorem Aligned.shift (haligned : Aligned beforeAt beforeEnd afterAt afterEnd matches_)
    (beforeBy afterBy : Nat) :
    Aligned (beforeBy + beforeAt) (beforeBy + beforeEnd) (afterBy + afterAt)
      (afterBy + afterEnd)
      (matches_.map fun pair => (beforeBy + pair.1, afterBy + pair.2)) := by
  induction matches_ generalizing beforeAt afterAt with
  | nil =>
    obtain ⟨hb, ha⟩ := haligned
    exact ⟨by omega, by omega⟩
  | cons pair rest ih =>
    obtain ⟨hb, hbe, ha, hae, hrest⟩ := haligned
    refine ⟨by omega, by omega, by omega, by omega, ?_⟩
    exact (ih hrest).weaken (by omega) (by omega)

theorem aligned_positionalMatches (lefts rights : List (JsonTree ι)) (beforeAt afterAt : Nat) :
    Aligned beforeAt (beforeAt + lefts.length) afterAt
      (afterAt + rights.length)
      (positionalMatches lefts rights beforeAt afterAt) := by
  induction lefts generalizing rights beforeAt afterAt with
  | nil => exact ⟨by simp, by simp⟩
  | cons left lefts ih =>
    cases rights with
    | nil => exact ⟨by simp, by simp⟩
    | cons right rights =>
      have hrest := ih rights (beforeAt + 1) (afterAt + 1)
      rw [Nat.add_right_comm, Nat.add_right_comm afterAt] at hrest
      simp only [positionalMatches, length_cons]
      split
      · exact ⟨le_rfl, by omega, le_rfl, by omega, hrest⟩
      · exact hrest.weaken (Nat.le_succ _) (Nat.le_succ _)

/-! ### Subsequences -/

variable {hay rest : List (JsonTree ι)}

theorem scan_eq_some {value : JsonTree ι}
    {at_ found : Nat} (hscan : scan value hay at_ = some (found, rest)) :
    at_ ≤ found ∧ found + 1 + rest.length = at_ + hay.length := by
  induction hay generalizing at_ with
  | nil => simp [scan] at hscan
  | cons item tail ih =>
    rw [scan] at hscan
    split at hscan
    · cases hscan
      exact ⟨le_rfl, by simp; omega⟩
    obtain ⟨hle, hlength⟩ := ih hscan
    exact ⟨by omega, by simp; omega⟩

theorem aligned_subsequence {needles : List (JsonTree ι)}
    {hayAt needleAt : Nat} {pairs : List (Nat × Nat)}
    (hpairs : subsequence hay hayAt needles needleAt = some pairs) :
    Aligned hayAt (hayAt + hay.length) needleAt (needleAt + needles.length) pairs := by
  induction needles generalizing hay hayAt needleAt pairs with
  | nil =>
    cases hpairs
    exact ⟨by simp, by simp⟩
  | cons needle needles ih =>
    simp only [subsequence, bind_eq_bind, bind_eq_some_iff]
      at hpairs
    obtain ⟨⟨found, rest⟩, hscan, tail, htail, heq⟩ := hpairs
    cases heq
    obtain ⟨hle, hlength⟩ := scan_eq_some hscan
    have hrest := ih htail
    rw [hlength] at hrest
    refine ⟨hle, by omega, le_rfl, by simp, ?_⟩
    rw [length_cons, ← Nat.add_assoc, Nat.add_right_comm]
    exact hrest

variable {pairs : List ArrayMatch}

theorem aligned_identitySubsequence {beforeStart afterStart : Nat}
    (hpairs : identitySubsequence before beforeStart after afterStart = some pairs) :
    Aligned beforeStart (beforeStart + before.length) afterStart
      (afterStart + after.length) pairs := by
  rw [identitySubsequence] at hpairs
  split at hpairs
  · exact aligned_subsequence hpairs
  split at hpairs
  · obtain ⟨swapped, hswapped, rfl⟩ := map_eq_some_iff.mp hpairs
    exact (aligned_subsequence hswapped).swap
  · simp at hpairs

/-! ### The walk through the table -/

omit [DecidableEq ι] in
theorem aligned_lcsWalk (equal : JsonTree ι → JsonTree ι → Bool)
    (table : List (List Nat)) (before after : List (JsonTree ι))
    (fuel left right : Nat) (hleft : left ≤ before.length) (hright : right ≤ after.length) :
    Aligned left before.length right after.length
      (lcsWalk equal table before after fuel left right) := by
  induction fuel generalizing left right with
  | zero => exact ⟨hleft, hright⟩
  | succ fuel ih =>
    rw [lcsWalk]
    split
    next first second hfirst hsecond =>
      have hleft' := (List.getElem?_eq_some_iff.mp hfirst).1
      have hright' := (List.getElem?_eq_some_iff.mp hsecond).1
      split
      · exact ⟨le_rfl, hleft', le_rfl, hright', ih (left + 1) (right + 1) hleft' hright'⟩
      split
      · exact (ih (left + 1) right hleft' hright).weaken
          (Nat.le_succ left) le_rfl
      exact (ih left (right + 1) hleft hright').weaken le_rfl
        (Nat.le_succ right)
    · exact ⟨hleft, hright⟩

omit [DecidableEq ι] in
theorem aligned_lcsMatches {equal : JsonTree ι → JsonTree ι → Bool} {maxCells : Nat}
    (hpairs : lcsMatches before after equal maxCells = some pairs) :
    Aligned 0 before.length 0 after.length pairs := by
  rw [lcsMatches] at hpairs
  split at hpairs
  · cases hpairs
    exact ⟨Nat.zero_le _, Nat.zero_le _⟩
  split at hpairs
  · simp at hpairs
  cases hpairs
  exact aligned_lcsWalk equal _ before after _ 0 0 (Nat.zero_le _)
    (Nat.zero_le _)

/-! ### Positions -/

/-- The entries are the ascending positions, from `start` to before `upto`, of
the items of one identity. -/
def PositionsOf (items : List (JsonTree ι)) (start upto : Nat)
    (positions : List (Identity ι × List Nat)) : Prop :=
  ∀ key indices, PropertyList.get key positions = some indices →
    indices.Pairwise (· < ·) ∧ ∀ i ∈ indices, start ≤ i ∧ i < upto ∧
      ∃ item, items[i - start]? = some item ∧ identity item = key

variable {limit : Nat} {positions : List (Identity ι × List Nat)}

theorem positionsOf_addPosition (hpositions : PositionsOf items start at_ positions)
    (hstart : start ≤ at_) {item : JsonTree ι} (hitem : items[at_ - start]? = some item) :
    PositionsOf items start (at_ + 1) (addPosition positions (identity item) at_) := by
  intro key indices hget
  rw [addPosition, get_put] at hget
  split at hget
  next hkey =>
    cases hget
    have hold : ((get (identity item) positions).getD []).Pairwise
          (· < ·) ∧
        ∀ i ∈ (get (identity item) positions).getD [],
          start ≤ i ∧ i < at_ ∧
            ∃ found, items[i - start]? = some found ∧ identity found = key := by
      cases hentry : get (identity item) positions with
      | none => simp
      | some indices =>
        rw [← hkey] at hentry
        exact hpositions key indices hentry
    refine ⟨?_, ?_⟩
    · rw [pairwise_append]
      refine ⟨hold.1, pairwise_singleton _ _, ?_⟩
      intro i hi j hj
      obtain rfl := mem_singleton.mp hj
      exact (hold.2 i hi).2.1
    intro i hi
    rcases mem_append.mp hi with hi | hi
    · obtain ⟨hlow, hhigh, hfound⟩ := hold.2 i hi
      exact ⟨hlow, by omega, hfound⟩
    obtain rfl := mem_singleton.mp hi
    exact ⟨hstart, by omega, item, hitem, hkey.symm⟩
  · obtain ⟨hsorted, hall⟩ := hpositions key indices hget
    refine ⟨hsorted, fun i hi => ?_⟩
    obtain ⟨hlow, hhigh, hfound⟩ := hall i hi
    exact ⟨hlow, by omega, hfound⟩

theorem positionsOf_collect (hpositions : PositionsOf items start at_ positions)
    (hstart : start ≤ at_) (hrest : items.drop (at_ - start) = rest) :
    PositionsOf items start (at_ + rest.length) (collectPositions positions rest at_) := by
  induction rest generalizing at_ positions with
  | nil => exact hpositions
  | cons item tail ih =>
    have hitem : items[at_ - start]? = some item := by
      rw [← head?_drop, hrest]
      rfl
    have htail : items.drop (at_ + 1 - start) = tail := by
      rw [Nat.sub_add_comm hstart, ← drop_drop, hrest]
      rfl
    have hnext := ih (positionsOf_addPosition hpositions hstart hitem)
      (by omega) htail
    rw [length_cons, ← Nat.add_assoc, Nat.add_right_comm]
    exact hnext

theorem positionsOf_collectPositions (items : List (JsonTree ι)) (start : Nat) :
    PositionsOf items start (start + items.length) (collectPositions [] items start) := by
  apply positionsOf_collect
  · intro key indices hget
    simp at hget
  · exact le_rfl
  · rw [Nat.sub_self, drop_zero]

/-! ### Binary search -/

variable {values : List Nat}

theorem lowerBoundLoop_spec (hsorted : values.Pairwise (· < ·)) (value fuel low high : Nat)
    (hfuel : high - low ≤ fuel) (hlow : low ≤ high) (hhigh : high ≤ values.length)
    (hbelow : ∀ i v, i < low → values[i]? = some v → v < value)
    (habove : ∀ i v, high ≤ i → values[i]? = some v → value ≤ v) :
    lowerBoundLoop values value fuel low high ≤ values.length ∧
      (∀ i v, i < lowerBoundLoop values value fuel low high → values[i]? = some v → v < value) ∧
      ∀ i v, lowerBoundLoop values value fuel low high ≤ i →
        values[i]? = some v → value ≤ v := by
  induction fuel generalizing low high with
  | zero =>
    obtain rfl : low = high := by omega
    exact ⟨hhigh, hbelow, habove⟩
  | succ fuel ih =>
    rw [lowerBoundLoop]
    split
    next hlt =>
      have hmiddle : (low + high) / 2 < values.length := by omega
      have hget := getElem?_eq_getElem hmiddle
      have hgetD : values.getD ((low + high) / 2) 0 =
          values[(low + high) / 2] := by
        rw [getD_eq_getElem?_getD, hget]
        rfl
      have hmono : ∀ i j v w : Nat, i < j → values[i]? = some v →
          values[j]? = some w → v < w := by
        intro i j v w hij hv hw
        obtain ⟨hi, rfl⟩ := List.getElem?_eq_some_iff.mp hv
        obtain ⟨hj, rfl⟩ := List.getElem?_eq_some_iff.mp hw
        exact pairwise_iff_getElem.mp hsorted i j hi hj hij
      simp only [hgetD]
      split
      next hless =>
        refine ih _ _ (by omega) (by omega) hhigh ?_ habove
        intro i v hi hv
        rcases Nat.lt_or_eq_of_le (Nat.le_of_lt_succ hi) with hlt' | rfl
        · exact (hmono _ _ _ _ hlt' hv hget).trans hless
        rw [hget] at hv
        rw [← some.inj hv]
        exact hless
      rename_i hnot
      refine ih _ _ (by omega) (by omega) (by omega) hbelow ?_
      intro i v hi hv
      rcases Nat.lt_or_eq_of_le hi with hlt' | rfl
      · exact (not_lt.mp hnot).trans (hmono _ _ _ _ hlt' hget hv).le
      rw [hget] at hv
      rw [← some.inj hv]
      exact not_lt.mp hnot
    · obtain rfl : low = high := by omega
      exact ⟨hhigh, hbelow, habove⟩

theorem lowerBound_spec (hsorted : values.Pairwise (· < ·)) (value : Nat) :
    lowerBound values value ≤ values.length ∧
      (∀ i v, i < lowerBound values value → values[i]? = some v → v < value) ∧
      ∀ i v, lowerBound values value ≤ i → values[i]? = some v →
        value ≤ v := by
  refine lowerBoundLoop_spec hsorted value _ 0 _ (Nat.sub_le _ _)
    (Nat.zero_le _) le_rfl ?_ ?_
  · intro i v hi
    omega
  intro i v hi hv
  have hlt := (List.getElem?_eq_some_iff.mp hv).1
  omega

/-! ### Anchors -/

theorem aligned_greedyIdentityAnchors (hpositions : PositionsOf items start upto positions)
    (hupto : start ≤ upto)
    (after : List (JsonTree ι)) (least afterAt : Nat) (hleast : least ≤ upto) :
    Aligned (max start least) upto afterAt (afterAt + after.length)
      (greedyIdentityAnchors positions least after afterAt) := by
  induction after generalizing least afterAt with
  | nil => exact ⟨max_le hupto hleast, le_rfl⟩
  | cons value rest ih =>
    rw [greedyIdentityAnchors]
    have hlength : afterAt + (value :: rest).length =
        afterAt + 1 + rest.length := by
      rw [length_cons]
      omega
    rw [hlength]
    split
    next beforeIndex hfound =>
      rw [bind_eq_some_iff] at hfound
      obtain ⟨candidates, hcandidates, hindex⟩ := hfound
      obtain ⟨hsorted, hall⟩ := hpositions _ candidates hcandidates
      obtain ⟨hlow, hhigh, -⟩ := hall _ (mem_of_getElem? hindex)
      have hbound := (lowerBound_spec hsorted least).2.2 _ _ le_rfl hindex
      refine ⟨max_le hlow hbound, hhigh, le_rfl, by omega, ?_⟩
      have htail := ih (beforeIndex + 1) (afterAt + 1) hhigh
      rwa [max_eq_right (by omega)] at htail
    · exact (ih least (afterAt + 1) hleast).weaken le_rfl (Nat.le_succ _)

/-- The state of the patience search while the element at `afterAt` is handled
and its positions from `limit` on are done; the candidates so far belong to
elements before `high`. -/
structure AnchorsInvariant (start upto afterStart high afterAt limit : Nat)
    (anchors : Anchors) : Prop where
  length_eq : anchors.tails.length = anchors.tailValues.length
  sorted : anchors.tailValues.Pairwise (· < ·)
  tail : ∀ i at_ v : Nat, anchors.tails[i]? = some at_ →
    anchors.tailValues[i]? = some v →
      ∃ c : MatchCandidate, anchors.candidates[at_]? = some c ∧
        c.before = v ∧ (v < limit → c.after < afterAt)
  candidate : ∀ (j : Nat) (c : MatchCandidate), anchors.candidates[j]? = some c →
    start ≤ c.before ∧ c.before < upto ∧ afterStart ≤ c.after ∧
      c.after < high ∧ ∀ q, c.previous = some q →
        ∃ p : MatchCandidate, anchors.candidates[q]? = some p ∧
          p.before < c.before ∧ p.after < c.after

theorem getElem?_assignAt {V : Type} {items : List V} {at_ : Nat}
    (hat : at_ ≤ items.length) (value : V) (i : Nat) :
    (assignAt items at_ value)[i]? =
      if i = at_ then some value else items[i]? := by
  rw [assignAt]
  split
  next hlt =>
    rw [getElem?_set]
    by_cases hi : at_ = i
    · subst hi
      simp [hlt]
    · rw [if_neg hi, if_neg (fun heq => hi heq.symm)]
  obtain rfl : at_ = items.length := by omega
  by_cases hi : i = items.length
  · subst hi
    simp
  rw [if_neg hi, getElem?_append]
  split
  · rfl
  rw [getElem?_eq_none (by simp; omega),
    getElem?_eq_none (by omega)]

theorem length_assignAt {V W : Type} {items : List V} {others : List W}
    (hlength : items.length = others.length) (at_ : Nat) (value : V) (other : W) :
    (assignAt items at_ value).length = (assignAt others at_ other).length := by
  rw [assignAt, assignAt, hlength]
  split <;> simp [hlength]

variable {anchors : Anchors}

section

variable (hinv : AnchorsInvariant start upto afterStart high afterAt limit anchors)

include hinv

/-- One position handled: the invariant moves its limit down to it. -/
theorem AnchorsInvariant.add (hafter : afterStart ≤ afterAt) (hfresh : afterAt < high)
    {beforeIndex : Nat} (hlow : start ≤ beforeIndex) (hhigh : beforeIndex < upto)
    (hlimit : beforeIndex < limit) :
    AnchorsInvariant start upto afterStart high afterAt beforeIndex
      (addCandidate afterAt anchors beforeIndex) := by
  obtain ⟨hat, hbelow, habove⟩ := lowerBound_spec hinv.sorted beforeIndex
  have hat' := hat
  rw [← hinv.length_eq] at hat'
  -- the candidates of before stay where they are
  have hold : ∀ {j : Nat} {c : MatchCandidate} (fresh : MatchCandidate),
      anchors.candidates[j]? = some c →
      (anchors.candidates ++ [fresh])[j]? = some c := by
    intro j c fresh hc
    rw [getElem?_append_left (List.getElem?_eq_some_iff.mp hc).1, hc]
  constructor
  · exact length_assignAt hinv.length_eq _ _ _
  · rw [pairwise_iff_getElem]
    intro i j hi hj hij
    have hvi := getElem?_eq_getElem hi
    have hvj := getElem?_eq_getElem hj
    simp only [addCandidate] at hvi hvj ⊢
    rw [getElem?_assignAt hat] at hvi hvj
    have hsorted := pairwise_iff_getElem.mp hinv.sorted
    split at hvi
    next hiat =>
      rw [if_neg (by omega)] at hvj
      obtain ⟨hjlt, hjeq⟩ := List.getElem?_eq_some_iff.mp hvj
      -- everything behind the assigned position is larger
      have hatlt : lowerBound anchors.tailValues beforeIndex <
          anchors.tailValues.length := by omega
      have hle := habove _ _ le_rfl (getElem?_eq_getElem hatlt)
      have hlt := hsorted _ j hatlt hjlt (by omega)
      rw [← some.inj hvi, ← hjeq]
      omega
    · obtain ⟨hilt, hieq⟩ := List.getElem?_eq_some_iff.mp hvi
      split at hvj
      next hjat =>
        rw [← some.inj hvj]
        exact hbelow i _ (by omega) hvi
      · obtain ⟨hjlt, hjeq⟩ := List.getElem?_eq_some_iff.mp hvj
        rw [← hieq, ← hjeq]
        exact hsorted i j hilt hjlt hij
  · intro i at_ v hi hv
    simp only [addCandidate] at hi hv ⊢
    rw [getElem?_assignAt hat'] at hi
    rw [getElem?_assignAt hat] at hv
    split at hi
    next hiat =>
      rw [if_pos hiat] at hv
      cases hi
      cases hv
      refine ⟨⟨beforeIndex, afterAt, _⟩, getElem?_concat_length, rfl, fun hlt => ?_⟩
      exact absurd hlt (lt_irrefl beforeIndex)
    next hiat =>
      rw [if_neg hiat] at hv
      obtain ⟨c, hc, hbefore, hlater⟩ := hinv.tail i at_ v hi hv
      exact ⟨c, hold _ hc, hbefore, fun hlt => hlater (by omega)⟩
  intro j c hc
  simp only [addCandidate] at hc ⊢
  rw [getElem?_append] at hc
  split at hc
  · obtain ⟨h1, h2, h3, h4, hprevious⟩ := hinv.candidate j c hc
    refine ⟨h1, h2, h3, h4, fun q hq => ?_⟩
    obtain ⟨p, hp, hless⟩ := hprevious q hq
    exact ⟨p, hold _ hp, hless⟩
  obtain rfl := mem_singleton.mp (mem_of_getElem? hc)
  refine ⟨hlow, hhigh, hafter, hfresh, fun q hq => ?_⟩
  split at hq
  · simp at hq
  rename_i hat0
  -- the tail before the assigned position is smaller in both coordinates
  have hlt : lowerBound anchors.tailValues beforeIndex - 1 <
      anchors.tailValues.length := by omega
  have hvalue := getElem?_eq_getElem hlt
  have hless := hbelow _ _ (by omega) hvalue
  obtain ⟨p, hp, hbefore, hearlier⟩ := hinv.tail _ q _ hq hvalue
  exact ⟨p, hold _ hp, by simp only; omega,
    hearlier (by omega)⟩

theorem AnchorsInvariant.addAll (hafter : afterStart ≤ afterAt) (hfresh : afterAt < high)
    {indices : List Nat} (hsorted : indices.Pairwise (· > ·))
    (hindices : ∀ i ∈ indices, start ≤ i ∧ i < upto ∧ i < limit) :
    ∃ limit', AnchorsInvariant start upto afterStart high afterAt limit'
      (indices.foldl (addCandidate afterAt) anchors) := by
  induction indices generalizing anchors limit with
  | nil => exact ⟨limit, hinv⟩
  | cons index rest ih =>
    obtain ⟨hlow, hhigh, hlimit⟩ := hindices index mem_cons_self
    rw [pairwise_cons] at hsorted
    refine ih (hinv.add hafter hfresh hlow hhigh hlimit) hsorted.2 ?_
    intro i hi
    obtain ⟨hlow', hhigh', -⟩ := hindices i (mem_cons_of_mem _ hi)
    exact ⟨hlow', hhigh', hsorted.1 i hi⟩

/-- Between two rounds every candidate belongs to an earlier element. -/
theorem AnchorsInvariant.next :
    AnchorsInvariant start upto afterStart (high + 1) high upto anchors where
  length_eq := hinv.length_eq
  sorted := hinv.sorted
  tail i at_ v hi hv := by
    obtain ⟨c, hc, hbefore, -⟩ := hinv.tail i at_ v hi hv
    exact ⟨c, hc, hbefore, fun _ => (hinv.candidate at_ c hc).2.2.2.1⟩
  candidate j c hc := by
    obtain ⟨h1, h2, h3, h4, hprevious⟩ := hinv.candidate j c hc
    exact ⟨h1, h2, h3, by omega, hprevious⟩

end

theorem anchorsInvariant_collect (hpositions : PositionsOf items start upto positions)
    {anchors : Anchors} (hinv : AnchorsInvariant start upto afterStart high afterAt limit anchors)
    (hhigh : afterStart ≤ high) (after : List (JsonTree ι)) :
    ∃ afterAt' limit', AnchorsInvariant start upto afterStart
      (high + after.length) afterAt' limit'
      (collectAnchors positions anchors after high) := by
  induction after generalizing anchors high afterAt limit with
  | nil => exact ⟨afterAt, limit, hinv⟩
  | cons value rest ih =>
    have hentry : ((get (identity value) positions).getD []).Pairwise (· < ·) ∧
        ∀ i ∈ (get (identity value) positions).getD [],
          start ≤ i ∧ i < upto := by
      cases hget : get (identity value) positions with
      | none => simp
      | some indices =>
        obtain ⟨hsorted, hall⟩ := hpositions _ indices hget
        exact ⟨hsorted, fun i hi => ⟨(hall i hi).1, (hall i hi).2.1⟩⟩
    obtain ⟨middle, hround⟩ := hinv.next.addAll hhigh (Nat.lt_succ_self high)
      (pairwise_reverse.mpr hentry.1) fun i hi => by
        obtain ⟨hlow, hlt⟩ := hentry.2 i (mem_reverse.mp hi)
        exact ⟨hlow, hlt, hlt⟩
    obtain ⟨last, limit', hrest⟩ := ih hround (by omega)
    refine ⟨last, limit', ?_⟩
    rw [collectAnchors, length_cons, ← Nat.add_assoc, Nat.add_right_comm]
    exact hrest

/-- Following the chain backwards gives ascending pairs. -/
theorem aligned_traceBack (hinv : AnchorsInvariant start upto afterStart high afterAt limit anchors)
    (fuel : Nat) (at_ : Option Nat) {rest : List ArrayMatch}
    (hrest : ∀ (j : Nat) (c : MatchCandidate), at_ = some j → anchors.candidates[j]? = some c →
        Aligned (c.before + 1) upto (c.after + 1) high rest)
    (hstart : Aligned start upto afterStart high rest) :
    Aligned start upto afterStart high
      ((traceBack anchors.candidates fuel at_).reverse ++ rest) := by
  induction fuel generalizing at_ rest with
  | zero => exact hstart
  | succ fuel ih =>
    cases at_ with
    | none => exact hstart
    | some j =>
      rw [traceBack]
      split
      next c hc =>
        obtain ⟨hbefore, hupto, hafter, hend, hprevious⟩ :=
          hinv.candidate j c hc
        have haligned := hrest j c rfl hc
        rw [reverse_cons, append_assoc]
        refine ih c.previous ?_ ⟨hbefore, hupto, hafter, hend, haligned⟩
        intro q p hq hp
        obtain ⟨p', hp', hless, hless'⟩ := hprevious q hq
        obtain rfl : p = p' := some.inj (hp.symm.trans hp')
        exact ⟨hless, hupto, hless', hend, haligned⟩
      · exact hstart

theorem aligned_identityAnchors (before : List (JsonTree ι))
    (beforeStart : Nat) (after : List (JsonTree ι)) (afterStart : Nat) :
    Aligned beforeStart (beforeStart + before.length) afterStart
      (afterStart + after.length)
      (identityAnchors before beforeStart after afterStart) := by
  have hpositions := positionsOf_collectPositions before beforeStart
  rw [identityAnchors]
  split
  · have hgreedy := aligned_greedyIdentityAnchors hpositions
      (Nat.le_add_right _ _) after 0 afterStart (Nat.zero_le _)
    rwa [max_eq_left (Nat.zero_le _)] at hgreedy
  split
  · exact ⟨Nat.le_add_right _ _, Nat.le_add_right _ _⟩
  have hempty : AnchorsInvariant beforeStart (beforeStart + before.length)
      afterStart afterStart afterStart 0 ⟨[], [], []⟩ := by
    constructor <;> simp
  obtain ⟨afterAt, limit, hinv⟩ :=
    anchorsInvariant_collect hpositions hempty le_rfl after
  rw [← append_nil (reverse _)]
  refine aligned_traceBack hinv _ _ (fun j c _ hc => ?_)
    ⟨Nat.le_add_right _ _, Nat.le_add_right _ _⟩
  obtain ⟨-, hupto, -, hhigh, -⟩ := hinv.candidate j c hc
  exact ⟨hupto, hhigh⟩

/-! ### Permutations -/

/-- The index was handed out before. -/
def Spent (positions : List (Identity ι × List Nat))
    (used : List (Identity ι × Nat)) (index : Nat) : Prop :=
  ∃ key indices, PropertyList.get key positions = some indices ∧
    index ∈ indices.take ((PropertyList.get key used).getD 0)

variable {result : List Nat}

/-- What the second loop hands out: positions of equal values, none twice. -/
theorem takePositions_spec (hpositions : PositionsOf before 0 before.length positions)
    {used : List (Identity ι × Nat)} {after : List (JsonTree ι)}
    (htake : takePositions positions used after = some result) :
    List.Forall₂ (fun index value => ∃ item, before[index]? = some item ∧
        identity item = identity value) result after ∧
      result.Nodup ∧ ∀ index ∈ result, ¬ Spent positions used index := by
  induction after generalizing used result with
  | nil =>
    cases htake
    exact ⟨.nil, nodup_nil, by simp⟩
  | cons value rest ih =>
    simp only [takePositions, bind_eq_bind, bind_eq_some_iff]
      at htake
    obtain ⟨indices, hindices, index, hindex, tail, htail, heq⟩ := htake
    cases heq
    obtain ⟨hsorted, hall⟩ := hpositions _ indices hindices
    obtain ⟨-, -, item, hitem, hidentity⟩ :=
      hall index (mem_of_getElem? hindex)
    rw [Nat.sub_zero] at hitem
    obtain ⟨hsame, hnodup, hunspent⟩ := ih htail
    -- what was spent before is still spent, and so is the new index
    have hspent : ∀ other, Spent positions used other ∨ other = index →
        Spent positions (put (fun _ _ => false)
          (identity value)
          ((get (identity value) used).getD 0 + 1) used)
          other := by
      rintro other (⟨key, entry, hentry, hmem⟩ | rfl)
      · refine ⟨key, entry, hentry, ?_⟩
        rw [get_put]
        split
        next hkey =>
          rw [← hkey]
          exact take_subset_take_left entry (Nat.le_succ _) hmem
        · exact hmem
      refine ⟨identity value, indices, hindices, ?_⟩
      rw [get_put_self]
      obtain ⟨hlt, heq⟩ := List.getElem?_eq_some_iff.mp hindex
      exact mem_take_iff_getElem.mpr
        ⟨_, lt_min (Nat.lt_succ_self _) hlt, heq⟩
    refine ⟨.cons ⟨item, hitem, hidentity⟩ hsame, nodup_cons.mpr ⟨?_, hnodup⟩, ?_⟩
    · intro hmem
      exact hunspent index hmem (hspent index (Or.inr rfl))
    intro other hother hold
    rcases mem_cons.mp hother with rfl | hother
    · -- a spent index of this value lies before the counter
      obtain ⟨key, entry, hentry, hmem⟩ := hold
      obtain ⟨-, -, found, hfound, hkey⟩ :=
        (hpositions key entry hentry).2 other (mem_of_mem_take hmem)
      rw [Nat.sub_zero, hitem] at hfound
      cases hfound
      obtain rfl : key = identity value := hkey.symm.trans hidentity
      obtain rfl : indices = entry :=
        some.inj (hindices.symm.trans hentry)
      obtain ⟨j, hj, hjeq⟩ := mem_take_iff_getElem.mp hmem
      obtain ⟨hj, hjlt⟩ := lt_min_iff.mp hj
      obtain ⟨hclt, hceq⟩ := List.getElem?_eq_some_iff.mp hindex
      have hlt := pairwise_iff_getElem.mp hsorted _ _ hjlt hclt hj
      omega
    · exact hunspent other hother (hspent other (Or.inl hold))

theorem permutation_spec
    (hpermutation : permutation before after = some result) :
    before.length = after.length ∧ result.Nodup ∧
      List.Forall₂ (fun index value => ∃ item, before[index]? = some item ∧
        identity item = identity value) result after := by
  rw [permutation] at hpermutation
  split at hpermutation
  · simp at hpermutation
  rename_i hlength
  have hpositions := positionsOf_collectPositions before 0
  rw [Nat.zero_add] at hpositions
  obtain ⟨hsame, hnodup, -⟩ := takePositions_spec hpositions hpermutation
  exact ⟨not_not.mp hlength, hnodup, hsame⟩

end Delta

end Hummin
