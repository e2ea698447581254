/-
The walks over the entries of a session file that nothing has validated: the path from an
entry up to its root, and the tree of all entries.
-/
import Mathlib.Algebra.Order.BigOperators.Group.List
import Hummin.Acyclic
import Hummin.JsMap
import Hummin.JsString

namespace Hummin.SessionTree

open List Option PropertyList

open Relation

universe u

/-- An id or a parent's id as it is parsed: a string or null. -/
abbrev Key := Option JsString

structure ParsedEntry (Body : Type u) where
  id : Key
  parentId : Key
  body : Body

abbrev EntryIndex (Body : Type u) := List (Key × ParsedEntry Body)

variable {Body : Type u} {entries : List (ParsedEntry Body)} {index : EntryIndex Body} {x : Key}

/-! ### Paths -/

def buildEntryIndex (entries : List (ParsedEntry Body)) : EntryIndex Body :=
  JsMap.ofPairs (entries.map fun entry => (entry.id, entry))

/-- The entry of an id; null and the empty string are not looked up. -/
def lookUp (index : EntryIndex Body) (id : Key) : Option (ParsedEntry Body) :=
  if id = none ∨ id = some [] then none else PropertyList.get id index

/-- The loop that follows the parents; `none` when the fuel does not reach. -/
def walkUp (index : EntryIndex Body) :
    Nat → Option (ParsedEntry Body) → Option (List (ParsedEntry Body))
  | _, none => some []
  | 0, some _ => none
  | fuel + 1, some entry =>
    (walkUp index fuel (lookUp index entry.parentId)).map fun path => entry :: path

/-- The leaf is not given, null or an id; an id that is not found is the last entry. -/
def buildSessionPath (fuel : Nat) (entries : List (ParsedEntry Body)) (leafId : Option Key)
    (byId : Option (EntryIndex Body)) : Option (List (ParsedEntry Body)) :=
  let index := byId.getD (buildEntryIndex entries)
  if leafId = some none then some []
  else
    let leaf := (leafId.bind (lookUp index)).or entries.getLast?
    (walkUp index fuel leaf).map List.reverse

def getBranch (fuel : Nat) (byId : EntryIndex Body) (leafId fromId : Key) :
    Option (List (ParsedEntry Body)) :=
  (walkUp byId fuel (lookUp byId (fromId.or leafId))).map List.reverse

/-! ### The tree -/

/-- The parent under which an entry's node is put, `none` for the roots. -/
def placeOf (entries : List (ParsedEntry Body)) (entry : ParsedEntry Body) : Option Key :=
  if entry.parentId = none ∨ entry.parentId = entry.id then none
  else if entry.parentId ∈ entries.map ParsedEntry.id then some entry.parentId
  else none

/-- The nodes at a place, by their ids.  The entries of one id share one node. -/
def placed (entries : List (ParsedEntry Body)) (place : Option Key) : List Key :=
  (entries.filter fun entry => placeOf entries entry = place).map ParsedEntry.id

/-- How the children of a node are sorted.  The comparison reads times that may be
invalid: nothing but a permutation is promised. -/
abbrev ChildSort := { sort : List Key → List Key // ∀ children, (sort children).Perm children }

/-- The loop over the stack of nodes, its top first: the nodes it pops. -/
def popNodes (sort : ChildSort) (children : Key → List Key) : Nat → List Key → Option (List Key)
  | _, [] => some []
  | 0, _ :: _ => none
  | fuel + 1, node :: stack =>
    (popNodes sort children fuel ((sort.1 (children node)).reverse ++ stack)).map
      fun popped => node :: popped

/-- The nodes of the forest, each as often as it has places in it. -/
def getTree (sort : ChildSort) (fuel : Nat) (entries : List (ParsedEntry Body)) :
    Option (List Key) :=
  popNodes sort (fun node => placed entries (some node)) fuel (placed entries none).reverse

/-- The entries of an id. -/
def withId (entries : List (ParsedEntry Body)) (id : Key) : List (ParsedEntry Body) :=
  entries.filter fun entry => entry.id = id

/-- The walks end from every leaf, and the tree has each entry with an id of its own once. -/
structure TreeSafe (sort : ChildSort) (entries : List (ParsedEntry Body)) : Prop where
  path : ∀ leafId byId, byId ∈ [none, some (buildEntryIndex entries)] →
    ∃ fuel path, buildSessionPath fuel entries leafId byId = some path
  branch : ∀ leafId fromId, ∃ fuel path,
    getBranch fuel (buildEntryIndex entries) leafId fromId = some path
  tree : ∃ fuel nodes, getTree sort fuel entries = some nodes ∧
    ∀ id, (withId entries id).length = 1 → nodes.count id = 1

/-! ### Links -/

/-- The walk leads from the entry of `child` to the entry of `parent`. -/
def Parent (index : EntryIndex Body) (parent child : Key) : Prop :=
  (lookUp index parent).isSome ∧ ∃ entry, lookUp index child = some entry ∧ entry.parentId = parent

/-- Some entry of `child` is put under `parent`. -/
def Under (entries : List (ParsedEntry Body)) (child parent : Key) : Prop :=
  ∃ entry ∈ entries, entry.id = child ∧ placeOf entries entry = some parent

/-- Places lead from an id to a root. -/
def Rooted (entries : List (ParsedEntry Body)) (id : Key) : Prop :=
  ∃ root, ReflTransGen (Under entries) id root ∧
    ∃ entry ∈ entries, entry.id = root ∧ placeOf entries entry = none

/-- The place of an entry is among the roots or under a rooted node. -/
def Held (entries : List (ParsedEntry Body)) (entry : ParsedEntry Body) : Prop :=
  ∀ parent, placeOf entries entry = some parent → Rooted entries parent

/-- No circle of parents on the way up or below a root, and one way only from an id that
occurs once to the roots. -/
structure WellLinked (entries : List (ParsedEntry Body)) : Prop where
  walks : Acyclic (Parent (buildEntryIndex entries))
  places : ∀ id, Rooted entries id → ¬ TransGen (Under entries) id id
  once : ∀ id, (withId entries id).length = 1 → Rooted entries id ∧
    ∀ above, ReflTransGen (Under entries) id above →
      (withId entries above).Pairwise fun first second =>
        ¬ (Held entries first ∧ Held entries second)

/-! ### The walks -/

theorem mem_keys_of_lookUp (hfound : (lookUp index x).isSome) : x ∈ keys index := by
  rw [lookUp] at hfound
  split at hfound
  · cases hfound
  · exact (get_isSome_iff x index).mp hfound

/-- Without a circle every walk ends. -/
theorem walkUp_ends (hacyclic : Acyclic (Parent index)) (start : Option (ParsedEntry Body)) :
    ∃ fuel path, walkUp index fuel start = some path := by
  have hwell : WellFounded (Parent index) := by
    apply hacyclic.wellFounded (finite_toSet (keys index))
    rintro parent child ⟨hparent, entry, hchild, -⟩
    exact ⟨mem_keys_of_lookUp hparent, mem_keys_of_lookUp (isSome_of_eq_some hchild)⟩
  have hids : ∀ id, ∃ fuel path, walkUp index fuel (lookUp index id) = some path := by
    intro id
    induction id using hwell.induction with
    | _ id ih =>
      cases hentry : lookUp index id with
      | none => exact ⟨0, [], rfl⟩
      | some entry =>
        cases hparent : lookUp index entry.parentId with
        | none => exact ⟨1, [entry], by simp [walkUp, hparent]⟩
        | some parent =>
          obtain ⟨fuel, path, hpath⟩ := ih entry.parentId
            ⟨isSome_of_eq_some hparent, entry, hentry, rfl⟩
          exact ⟨fuel + 1, entry :: path, by rw [walkUp, hpath, map_some]⟩
  cases start with
  | none => exact ⟨0, [], rfl⟩
  | some entry =>
    obtain ⟨fuel, path, hpath⟩ := hids entry.parentId
    exact ⟨fuel + 1, entry :: path, by rw [walkUp, hpath, map_some]⟩

/-- The walk from an entry on a circle has no end. -/
theorem walkUp_of_cycle (fuel : Nat) (hcycle : TransGen (Parent index) x x) :
    walkUp index fuel (lookUp index x) = none := by
  induction fuel generalizing x with
  | zero =>
    obtain ⟨parent, ⟨-, entry, hentry, -⟩, -⟩ := exists_edge_of_cycle hcycle
    rw [hentry, walkUp]
  | succ fuel ih =>
    obtain ⟨parent, ⟨-, entry, hentry, rfl⟩, hback⟩ := exists_edge_of_cycle hcycle
    rw [hentry, walkUp, ih hback, map_none]

/-! ### Sums -/

section

variable {α : Type u} {f : α → Nat} {list : List α} {a : α}

theorem le_sum (ha : a ∈ list) : f a ≤ (list.map f).sum :=
  le_sum_of_mem (mem_map_of_mem ha)

theorem add_le_sum {b : α} (ha : a ∈ list) (hb : b ∈ list) (hne : a ≠ b) :
    f a + f b ≤ (list.map f).sum := by
  induction list with
  | nil => cases ha
  | cons c rest ih =>
    rw [map_cons, sum_cons]
    rcases mem_cons.mp ha with rfl | hlater
    · have hother : f b ≤ (rest.map f).sum := le_sum (mem_of_ne_of_mem hne.symm hb)
      omega
    rcases mem_cons.mp hb with rfl | hother
    · have hothers : f a ≤ (rest.map f).sum := le_sum hlater
      omega
    have hothers := ih hlater hother
    omega

/-- A sum of at most one has one summand that counts. -/
theorem pairwise_of_sum_le (hsum : (list.map f).sum ≤ 1) :
    list.Pairwise fun a b => f a = 0 ∨ f b = 0 := by
  induction list with
  | nil => exact .nil
  | cons c rest ih =>
    rw [map_cons, sum_cons] at hsum
    refine .cons (fun b hb => ?_) (ih (by omega))
    have hrest : f b ≤ (rest.map f).sum := le_sum hb
    omega

theorem sum_eq_one (hone : list.Pairwise fun a b => f a = 0 ∨ f b = 0) (ha : a ∈ list)
    (hvalue : f a = 1) : (list.map f).sum = 1 := by
  induction hone with
  | nil => cases ha
  | @cons c rest hfirst hrest ih =>
    rw [map_cons, sum_cons]
    rcases mem_cons.mp ha with rfl | ha
    · have hzero : (rest.map f).sum = 0 := by
        rw [List.sum_eq_zero_iff_forall_eq_nat]
        rintro value hmem
        obtain ⟨b, hb, rfl⟩ := mem_map.mp hmem
        rcases hfirst b hb with hzero | hzero
        · omega
        · exact hzero
      omega
    have hzero : f c = 0 := by
      rcases hfirst a ha with hzero | hzero
      · exact hzero
      · omega
    rw [hzero, ih ha, Nat.zero_add]

end

/-! ### The loop over the stack -/

variable {sort : ChildSort} {children : Key → List Key} {fuel : Nat} {stack popped : List Key}

theorem popNodes_cons {node : Key}
    (hpop : popNodes sort children fuel (node :: stack) = some popped) :
    ∃ fuel rest, popped = node :: rest ∧
      popNodes sort children fuel ((sort.1 (children node)).reverse ++ stack) = some rest := by
  cases fuel with
  | zero => cases hpop
  | succ fuel =>
    rw [popNodes, map_eq_some_iff] at hpop
    obtain ⟨rest, hrest, rfl⟩ := hpop
    exact ⟨fuel, rest, rfl, hrest⟩

theorem popNodes_nil (hpop : popNodes sort children fuel stack = some []) : stack = [] := by
  cases stack with
  | nil => rfl
  | cons node stack =>
    obtain ⟨_, _, hnil, _⟩ := popNodes_cons hpop
    cases hnil

theorem mem_placed {place : Option Key} :
    x ∈ placed entries place ↔ ∃ entry ∈ entries, entry.id = x ∧ placeOf entries entry = place := by
  simp only [placed, List.mem_map, mem_filter, decide_eq_true_eq, and_assoc]
  constructor
  · rintro ⟨entry, hentry, hplace, hid⟩
    exact ⟨entry, hentry, hid, hplace⟩
  rintro ⟨entry, hentry, hid, hplace⟩
  exact ⟨entry, hentry, hplace, hid⟩

theorem mem_withId {entry : ParsedEntry Body} :
    entry ∈ withId entries x ↔ entry ∈ entries ∧ entry.id = x := by
  rw [withId, mem_filter, decide_eq_true_eq]

/-- Every entry of an id puts its node at one place. -/
theorem count_placed (place : Option Key) :
    (placed entries place).count x =
      ((withId entries x).map fun entry => if placeOf entries entry = place then 1 else 0).sum := by
  rw [placed, withId]
  generalize placeOf entries = placeOf
  induction entries with
  | nil => rfl
  | cons entry rest ih =>
    by_cases hplace : placeOf entry = place <;> by_cases hid : entry.id = x <;>
      simp [hplace, hid, ih, Nat.add_comm]

section

variable (hpop : popNodes sort (fun node => placed entries (some node)) fuel stack = some popped)
include hpop

/-- A popped node was on the stack or has been put under a popped node. -/
theorem popNodes_count :
    popped.count x = stack.count x +
      ((withId entries x).map fun entry => (placeOf entries entry).elim 0 popped.count).sum := by
  induction popped generalizing fuel stack with
  | nil =>
    rw [popNodes_nil hpop, count_nil, Nat.zero_add, eq_comm, List.sum_eq_zero_iff_forall_eq_nat]
    intro value hvalue
    obtain ⟨entry, -, rfl⟩ := mem_map.mp hvalue
    cases placeOf entries entry <;> rfl
  | cons node popped ih =>
    cases stack with
    | nil => cases fuel <;> cases hpop
    | cons top stack =>
      obtain ⟨fuel, rest, heq, hrest⟩ := popNodes_cons hpop
      cases heq
      have hsplit : (fun entry : ParsedEntry Body =>
          (placeOf entries entry).elim 0 (node :: popped).count) = fun entry =>
          (placeOf entries entry).elim 0 popped.count +
            if placeOf entries entry = some node then 1 else 0 := by
        funext entry
        cases placeOf entries entry with
        | none => rfl
        | some parent => simp [count_cons, eq_comm (a := parent)]
      rw [hsplit, sum_map_add, ← count_placed, count_cons, count_cons, ih hrest,
        count_append, count_reverse, (sort.2 _).count_eq]
      omega

/-- Only nodes below the roots are popped. -/
theorem rooted_of_popNodes (hstack : ∀ node ∈ stack, Rooted entries node) :
    ∀ node ∈ popped, Rooted entries node := by
  induction popped generalizing fuel stack with
  | nil => exact forall_mem_nil _
  | cons node popped ih =>
    cases stack with
    | nil => cases fuel <;> cases hpop
    | cons top stack =>
      obtain ⟨fuel, rest, heq, hrest⟩ := popNodes_cons hpop
      cases heq
      obtain ⟨hnode, hstack⟩ := forall_mem_cons.mp hstack
      refine forall_mem_cons.mpr ⟨hnode, ih hrest fun child hchild => ?_⟩
      rcases mem_append.mp hchild with hchild | hchild
      · rw [mem_reverse, (sort.2 _).mem_iff, mem_placed] at hchild
        obtain ⟨root, hpath, hroot⟩ := hnode
        exact ⟨root, .head hchild hpath, hroot⟩
      · exact hstack child hchild

end

/-! ### The forest -/

section

variable {nodes : List Key} (htree : getTree sort fuel entries = some nodes)
include htree

/-- A node has a place for each of its entries among the roots, and for each place of the
parent of another one. -/
theorem getTree_count :
    nodes.count x =
      ((withId entries x).map fun entry => (placeOf entries entry).elim 1 nodes.count).sum := by
  have hsplit : (fun entry : ParsedEntry Body => (placeOf entries entry).elim 1 nodes.count) =
      fun entry => (if placeOf entries entry = none then 1 else 0) +
        (placeOf entries entry).elim 0 nodes.count := by
    funext entry
    cases placeOf entries entry with
    | none => rfl
    | some parent => simp
  rw [hsplit, sum_map_add, ← count_placed, popNodes_count htree, count_reverse]

/-- A node has a place for each one of a parent. -/
theorem count_le_of_under {child parent : Key} (hunder : Under entries child parent) :
    nodes.count parent ≤ nodes.count child := by
  obtain ⟨entry, hentry, hid, hplace⟩ := hunder
  have hle := le_sum (f := fun entry => (placeOf entries entry).elim 1 nodes.count)
    (mem_withId.mpr ⟨hentry, hid⟩)
  rwa [← getTree_count htree, hplace] at hle

theorem count_le_of_path {below above : Key} (hpath : ReflTransGen (Under entries) below above) :
    nodes.count above ≤ nodes.count below := by
  induction hpath with
  | refl => exact le_rfl
  | tail _ hunder ih => exact le_trans (count_le_of_under htree hunder) ih

theorem count_root {entry : ParsedEntry Body} (hentry : entry ∈ entries)
    (hplace : placeOf entries entry = none) : 1 ≤ nodes.count entry.id := by
  have hle := le_sum (f := fun entry => (placeOf entries entry).elim 1 nodes.count)
    (mem_withId.mpr ⟨hentry, rfl⟩)
  rwa [← getTree_count htree, hplace] at hle

theorem count_pos_iff : 0 < nodes.count x ↔ Rooted entries x := by
  constructor
  · intro hcount
    refine rooted_of_popNodes htree (fun node hnode => ?_) x (List.count_pos_iff.mp hcount)
    obtain ⟨entry, hentry, hid, hplace⟩ := mem_placed.mp (mem_reverse.mp hnode)
    exact ⟨node, .refl, entry, hentry, hid, hplace⟩
  rintro ⟨root, hpath, entry, hentry, rfl, hplace⟩
  exact lt_of_lt_of_le (count_root htree hentry hplace) (count_le_of_path htree hpath)

theorem weight_eq_zero_iff (entry : ParsedEntry Body) :
    (placeOf entries entry).elim 1 nodes.count = 0 ↔ ¬ Held entries entry := by
  rw [Held]
  cases placeOf entries entry with
  | none => simp
  | some parent => simp [← count_pos_iff htree, Nat.pos_iff_ne_zero]

/-- Below a root no circle is closed, for the circle would give its nodes ever more places. -/
theorem not_cycle_of_rooted (hrooted : Rooted entries x) : ¬ TransGen (Under entries) x x := by
  obtain ⟨root, hpath, top, htop, htopId, hplace⟩ := hrooted
  induction hpath using ReflTransGen.head_induction_on with
  | refl =>
    intro hcycle
    obtain ⟨parent, hunder, hback⟩ := TransGen.head'_iff.mp hcycle
    obtain ⟨entry, hentry, hid, hparent⟩ := hunder
    have hne : top ≠ entry := by
      rintro rfl
      rw [hplace] at hparent
      cases hparent
    have hsum := add_le_sum (f := fun entry => (placeOf entries entry).elim 1 nodes.count)
      (mem_withId.mpr ⟨htop, htopId⟩) (mem_withId.mpr ⟨hentry, hid⟩) hne
    rw [← getTree_count htree, hplace, hparent] at hsum
    have hle := count_le_of_path htree hback
    simp only [elim_none, elim_some] at hsum
    omega
  | @head child above hunder hpath ih =>
    intro hcycle
    obtain ⟨parent, hother, hback⟩ := TransGen.head'_iff.mp hcycle
    by_cases hsame : parent = above
    · subst hsame
      exact ih (TransGen.tail' hback hother)
    obtain ⟨first, hfirst, hfirstId, hfirstPlace⟩ := hunder
    obtain ⟨second, hsecond, hsecondId, hsecondPlace⟩ := hother
    have hne : first ≠ second := by
      rintro rfl
      exact hsame (some.inj (hsecondPlace.symm.trans hfirstPlace))
    have hsum := add_le_sum (f := fun entry => (placeOf entries entry).elim 1 nodes.count)
      (mem_withId.mpr ⟨hfirst, hfirstId⟩) (mem_withId.mpr ⟨hsecond, hsecondId⟩) hne
    rw [← getTree_count htree, hfirstPlace, hsecondPlace] at hsum
    have hle := count_le_of_path htree hback
    have hpos := (count_pos_iff htree).mpr ⟨root, hpath, top, htop, htopId, hplace⟩
    simp only [elim_some] at hsum
    omega

/-- A rooted node has one place when above it no two entries of an id are held. -/
theorem count_eq_one (hrooted : Rooted entries x)
    (honce : ∀ above, ReflTransGen (Under entries) x above →
      (withId entries above).Pairwise fun first second =>
        ¬ (Held entries first ∧ Held entries second)) : nodes.count x = 1 := by
  have hpairs : ∀ above, ReflTransGen (Under entries) x above →
      (withId entries above).Pairwise fun first second =>
        (placeOf entries first).elim 1 nodes.count = 0 ∨
          (placeOf entries second).elim 1 nodes.count = 0 := by
    intro above hpath
    refine (honce above hpath).imp fun {first second} hheld => ?_
    rw [weight_eq_zero_iff htree, weight_eq_zero_iff htree, ← not_and_or]
    exact hheld
  obtain ⟨root, hpath, top, htop, htopId, hplace⟩ := hrooted
  induction hpath using ReflTransGen.head_induction_on with
  | refl =>
    rw [getTree_count htree]
    exact sum_eq_one (hpairs root .refl) (mem_withId.mpr ⟨htop, htopId⟩) (by rw [hplace]; rfl)
  | @head child above hunder hpath ih =>
    have habove := ih (fun other hother => honce other (.head hunder hother))
      fun other hother => hpairs other (.head hunder hother)
    obtain ⟨entry, hentry, hid, hparent⟩ := hunder
    rw [getTree_count htree]
    exact sum_eq_one (hpairs child .refl) (mem_withId.mpr ⟨hentry, hid⟩) (by rw [hparent]; exact habove)

end

/-! ### The end of the loop -/

/-- The loop ends from a stack. -/
def Ends (sort : ChildSort) (entries : List (ParsedEntry Body)) (stack : List Key) : Prop :=
  ∃ fuel popped, popNodes sort (fun node => placed entries (some node)) fuel stack = some popped

theorem Ends.append {list stack : List Key}
    (hlist : ∀ node ∈ list, ∀ stack, Ends sort entries stack → Ends sort entries (node :: stack))
    (hstack : Ends sort entries stack) : Ends sort entries (list ++ stack) := by
  induction list with
  | nil => exact hstack
  | cons node list ih =>
    obtain ⟨hnode, hlist⟩ := forall_mem_cons.mp hlist
    exact hnode _ (ih hlist)

/-- Without a circle below the roots, the loop ends. -/
theorem getTree_ends (sort : ChildSort)
    (hplaces : ∀ id, Rooted entries id → ¬ TransGen (Under entries) id id) :
    ∃ fuel nodes, getTree sort fuel entries = some nodes := by
  have hacyclic : Acyclic fun child parent => Under entries child parent ∧ Rooted entries parent := by
    intro id hcycle
    obtain ⟨other, ⟨-, hrooted⟩, hback⟩ := exists_edge_of_cycle hcycle
    obtain ⟨-, -, -, hid⟩ := TransGen.tail'_iff.mp hcycle
    exact hplaces id hid (hcycle.lift (fun node => node) fun _ _ hunder => hunder.1)
  have hwell := hacyclic.wellFounded
    (finite_toSet (entries.map ParsedEntry.id)) (by
      rintro child parent ⟨⟨entry, hentry, rfl, hplace⟩, -⟩
      refine ⟨mem_map_of_mem hentry, ?_⟩
      rw [placeOf] at hplace
      split at hplace
      · cases hplace
      split at hplace
      next hparent =>
        rwa [some.inj hplace] at hparent
      · cases hplace)
  have hnodes : ∀ node, Rooted entries node → ∀ stack, Ends sort entries stack →
      Ends sort entries (node :: stack) := by
    intro node
    induction node using hwell.induction with
    | _ node ih =>
      intro hrooted stack hstack
      have hchildren : Ends sort entries
          ((sort.1 (placed entries (some node))).reverse ++ stack) := by
        refine hstack.append fun child hchild => ?_
        rw [mem_reverse, (sort.2 _).mem_iff, mem_placed] at hchild
        obtain ⟨root, hpath, hroot⟩ := hrooted
        exact ih child ⟨hchild, root, hpath, hroot⟩ ⟨root, .head hchild hpath, hroot⟩
      obtain ⟨fuel, popped, hpop⟩ := hchildren
      exact ⟨fuel + 1, node :: popped, by rw [popNodes, hpop, map_some]⟩
  have hroots : Ends sort entries ((placed entries none).reverse ++ []) := by
    apply Ends.append (fun node hnode => hnodes node ?_) ⟨0, [], rfl⟩
    obtain ⟨entry, hentry, hid, hplace⟩ := mem_placed.mp (mem_reverse.mp hnode)
    exact ⟨node, .refl, entry, hentry, hid, hplace⟩
  rwa [append_nil] at hroots

/-! ### Unvalidated files -/

/-- The walks end and the tree is whole exactly for the files whose parents close no circle
and lead from each id that occurs once to the roots by one way. -/
theorem treeSafe_iff (sort : ChildSort) (entries : List (ParsedEntry Body)) :
    TreeSafe sort entries ↔ WellLinked entries := by
  constructor
  · rintro ⟨-, hbranch, fuel, nodes, htree, hunique⟩
    refine ⟨fun id hcycle => ?_, fun id hid => not_cycle_of_rooted htree hid, fun id hid => ?_⟩
    · obtain ⟨fuel, path, hpath⟩ := hbranch none id
      rw [getBranch, or_none, walkUp_of_cycle fuel hcycle] at hpath
      cases hpath
    have hone := hunique id hid
    refine ⟨(count_pos_iff htree).mp (by omega), fun above hpath => ?_⟩
    have hle := count_le_of_path htree hpath
    rw [hone, getTree_count htree] at hle
    refine (pairwise_of_sum_le hle).imp fun {first second} hzero => ?_
    rwa [weight_eq_zero_iff htree, weight_eq_zero_iff htree, ← not_and_or] at hzero
  rintro ⟨hwalks, hplaces, honce⟩
  refine ⟨fun leafId byId hbyId => ?_, fun leafId fromId => ?_, ?_⟩
  · have hindex : byId.getD (buildEntryIndex entries) = buildEntryIndex entries := by
      rcases mem_pair.mp hbyId with rfl | rfl <;> rfl
    simp only [buildSessionPath, hindex]
    split
    · exact ⟨0, [], rfl⟩
    · obtain ⟨fuel, path, hpath⟩ := walkUp_ends hwalks
        ((leafId.bind (lookUp (buildEntryIndex entries))).or entries.getLast?)
      exact ⟨fuel, path.reverse, by rw [hpath, map_some]⟩
  · obtain ⟨fuel, path, hpath⟩ := walkUp_ends hwalks
      (lookUp (buildEntryIndex entries) (fromId.or leafId))
    exact ⟨fuel, path.reverse, by rw [getBranch, hpath, map_some]⟩
  · obtain ⟨fuel, nodes, htree⟩ := getTree_ends sort hplaces
    refine ⟨fuel, nodes, htree, fun id hid => ?_⟩
    obtain ⟨hrooted, hpairs⟩ := honce id hid
    exact count_eq_one htree hrooted hpairs

/-- Two entries that name each other as their parent. -/
def circle : List (ParsedEntry Unit) :=
  [⟨some (js ['a']), some (js ['b']), ()⟩, ⟨some (js ['b']), some (js ['a']), ()⟩]

/-- The walk up a circle never ends. -/
theorem not_always_treeSafe :
    ¬ ∀ (sort : ChildSort) (entries : List (ParsedEntry Unit)), TreeSafe sort entries := by
  intro hsafe
  obtain ⟨fuel, path, hpath⟩ := (hsafe ⟨id, fun _ => .refl _⟩ circle).branch none (some (js ['a']))
  have hcycle : TransGen (Parent (buildEntryIndex circle)) (some (js ['a'])) (some (js ['a'])) :=
    .tail (.single ⟨rfl, _, rfl, rfl⟩) ⟨rfl, _, rfl, rfl⟩
  rw [getBranch, or_none, walkUp_of_cycle fuel hcycle] at hpath
  cases hpath

end Hummin.SessionTree
