/-
What the changes of a streaming parser are for: applied to a copy of the value they give the
parser's own value, without the scalar that has not ended and with the open containers that are
too deep shown empty.
-/
import Hummin.StreamingJsonRuns

namespace Hummin.StreamingJson

open List Option JsonTree

/-! ### Applying changes -/

/-- A change applied to a copy of the value, absent at first. `none` when the target of the
change is not present or not of its kind. -/
def Change.apply : Change → Option JsonValue → Option (Option JsonValue)
  | .set path value, whole =>
    match path.getLast? with
    | none => some (some value)
    | some seg => do
        let whole ← whole
        let container ← whole.getAt path.dropLast
        if seg.isNumber = container.isArray then
          let changed ← container.defineProperty seg value
          some (some (whole.replaceAt path.dropLast changed))
        else none
  | .append path text, whole => do
      let whole ← whole
      match whole.getAt path with
      | some (.str before) => some (some (whole.replaceAt path (.str (before ++ text))))
      | _ => none

/-- The changes applied one after another. -/
def replay (changes : List Change) (value : Option JsonValue) : Option (Option JsonValue) :=
  changes.foldlM (fun value change => change.apply value) value

/-! ### What is reported -/

def Container.emptied : Container → Container
  | .object _ => .object []
  | .array _ => .array []

/-- The outermost copy as the changes report it: an open container at the largest depth or
below is empty. The frames below a container are its depth, and the length of its path. -/
def shownFrames : Option (Slot × JsonValue) → List Frame → Option (Slot × JsonValue)
  | child, [] => child
  | child, frame :: rest =>
    shownFrames (frame.slot.map fun slot =>
      (slot, (if rest.length < maxReportedDepth then withChild child frame.container
        else frame.container.emptied).toJson)) rest

def shownWith (child : Option (Slot × JsonValue)) (stack : List Frame)
    (root : Option JsonValue) : Option JsonValue :=
  match shownFrames child stack with
  | some (.root, value) => some value
  | _ => root

/-- The value of the text read so far, without the unterminated scalar and with every open
container at the largest reported depth shown empty. -/
def shown (parser : Parser) : Option JsonValue :=
  shownWith none parser.stack parser.root

/-! ### Paths of slots -/

/-- The segment of a slot below its container. -/
def Slot.seg : Slot → Option Seg
  | .root => none
  | .member key => some (.key key)
  | .element index => some (.index index)

/-- The path of a slot of the innermost of some open containers, where changes are reported. -/
def pathIn (slot : Option Slot) (stack : List Frame) : Option Path :=
  match slot, stack with
  | none, _ => none
  | some .root, _ => some []
  | some _, [] => none
  | some slot, frame :: _ =>
    if frame.reportsInside then frame.path.bind fun path => slot.seg.map fun seg => path ++ [seg]
    else none

theorem reportedPath_eq (slot : Option Slot) (parser : Parser) :
    reportedPath slot parser = pathIn slot parser.stack := by
  rw [reportedPath.eq_def, pathIn.eq_def]
  cases slot with
  | none => rfl
  | some slot =>
    cases slot with
    | root => rfl
    | _ =>
      cases parser.stack with
      | nil => rfl
      | cons frame rest =>
        simp only [Slot.seg, map_some]
        split
        · cases frame.path <;> rfl
        · rfl

/-- A value can be written at the slot of a container. -/
def Container.Takes (slot : Slot) : Container → Prop
  | .object _ => ∃ key, slot = .member key
  | .array items => ∃ index ≤ items.length, slot = .element index

/-- A slot of the innermost open container, or of the root when there is none. -/
def SlotFits (slot : Slot) : List Frame → Prop
  | [] => slot = .root
  | frame :: _ => frame.container.Takes slot

/-- What the frames of the open path say of where they sit. -/
def Fits : List Frame → Prop
  | [] => True
  | frame :: rest =>
    frame.path = pathIn frame.slot rest ∧
      frame.reportsInside = frame.path.any (fun path => path.length < maxReportedDepth) ∧
      (∀ slot, frame.slot = some slot → SlotFits slot rest) ∧ Fits rest

variable {slot : Slot} {container : Container}

theorem Container.Takes.exists_seg
    (htakes : container.Takes slot) : ∃ seg, slot.seg = some seg := by
  cases container with
  | object fields =>
    obtain ⟨key, rfl⟩ := htakes
    exact ⟨.key key, rfl⟩
  | array items =>
    obtain ⟨index, -, rfl⟩ := htakes
    exact ⟨.index index, rfl⟩

variable {rest : List Frame}

/-- A slot of an open container has the path of the container before its own segment. -/
theorem pathIn_cons {frame : Frame} (htakes : frame.container.Takes slot) {path : Path} :
    pathIn (some slot) (frame :: rest) = some path ↔
      frame.reportsInside = true ∧ ∃ above seg, frame.path = some above ∧ slot.seg = some seg ∧
        path = above ++ [seg] := by
  obtain ⟨seg, hseg⟩ := htakes.exists_seg
  have hroot : slot ≠ .root := by
    rintro rfl
    simp [Slot.seg] at hseg
  have hpath : pathIn (some slot) (frame :: rest) =
      if frame.reportsInside then frame.path.map (· ++ [seg]) else none := by
    rw [pathIn.eq_def]
    cases slot with
    | root => exact absurd rfl hroot
    | member key | element index =>
      simp only [hseg, map_some]
      split
      · cases frame.path <;> rfl
      · rfl
  rw [hpath]
  cases hinside : frame.reportsInside with
  | false => simp
  | true =>
    simp only [if_true, map_eq_some_iff, true_and]
    constructor
    · rintro ⟨above, habove, rfl⟩
      exact ⟨above, seg, habove, hseg, rfl⟩
    rintro ⟨above, seg', habove, hseg', rfl⟩
    rw [hseg, some_inj] at hseg'
    exact ⟨above, habove, by rw [hseg']⟩

variable {stack : List Frame} {path : Path}

/-- A path is as long as the containers it leads through are many. -/
theorem length_of_pathIn (hfits : Fits stack)
    (hslot : SlotFits slot stack) (hpath : pathIn (some slot) stack = some path) :
    path.length = stack.length := by
  induction stack generalizing slot path with
  | nil =>
    rw [hslot] at hpath
    cases hpath
    rfl
  | cons frame rest ih =>
    obtain ⟨hframe, -, hbelow, hrest⟩ := hfits
    obtain ⟨-, above, seg, habove, -, rfl⟩ := (pathIn_cons hslot).mp hpath
    rw [hframe] at habove
    cases hframeSlot : frame.slot with
    | none =>
      rw [hframeSlot] at habove
      simp [pathIn] at habove
    | some slot' =>
      rw [hframeSlot] at habove
      rw [length_append, ih hrest (hbelow slot' hframeSlot) habove]
      rfl

/-! ### Slots of containers -/

theorem Container.Takes.setSlot {slot other : Slot} {container : Container}
    (htakes : container.Takes slot) (value : JsonValue) :
    (StreamingJson.setSlot other value container).Takes slot := by
  cases container with
  | object fields =>
    cases other with
    | member key => exact htakes
    | root | element index => exact htakes
  | array items =>
    obtain ⟨index, hindex, rfl⟩ := htakes
    cases other with
    | root | member key => exact ⟨index, hindex, rfl⟩
    | element at_ =>
      by_cases hlast : at_ = items.length
      · rw [StreamingJson.setSlot, if_pos hlast]
        exact ⟨index, by rw [length_append]; omega, rfl⟩
      rw [StreamingJson.setSlot, if_neg hlast]
      exact ⟨index, by rwa [length_set], rfl⟩

variable {seg : Seg}

section

variable (htakes : container.Takes slot)
include htakes

/-- Writing at a slot is defining the property of its segment. -/
theorem defineProperty_slot (hseg : slot.seg = some seg) (value : JsonValue) :
    seg.isNumber = container.toJson.isArray ∧
      container.toJson.defineProperty seg value = some (setSlot slot value container).toJson := by
  cases container with
  | object fields =>
    obtain ⟨key, rfl⟩ := htakes
    cases hseg
    exact ⟨rfl, rfl⟩
  | array items =>
    obtain ⟨index, hindex, rfl⟩ := htakes
    cases hseg
    refine ⟨rfl, ?_⟩
    rw [Container.toJson, JsonTree.defineProperty, setSlot]
    by_cases hlast : index = items.length
    · rw [if_neg (by omega), if_pos hlast, if_pos hlast]
      rfl
    rw [if_pos (by omega), if_neg hlast]
    rfl

/-- What is written at a slot is the child of its segment. -/
theorem child_setSlot (hseg : slot.seg = some seg) (value : JsonValue) :
    (setSlot slot value container).toJson.child seg = some value := by
  cases container with
  | object fields =>
    obtain ⟨key, rfl⟩ := htakes
    cases hseg
    exact PropertyList.get_put_self keyPrecedes key value fields
  | array items =>
    obtain ⟨index, hindex, rfl⟩ := htakes
    cases hseg
    rw [setSlot]
    by_cases hlast : index = items.length
    · rw [if_pos hlast, hlast]
      simp [Container.toJson, JsonTree.child]
    have hlt : index < items.length := by omega
    rw [if_neg hlast]
    simp [Container.toJson, JsonTree.child, hlt]

theorem setChild_setSlot (hseg : slot.seg = some seg) (first second : JsonValue) :
    (setSlot slot first container).toJson.setChild seg second =
      (setSlot slot second container).toJson := by
  have hdefine := (defineProperty_slot
    (@Container.Takes.setSlot slot slot container htakes first) hseg second).2
  rw [defineProperty_eq_setChild (child_setSlot htakes hseg first), setSlot_setSlot]
    at hdefine
  exact some.inj hdefine

theorem withChild_takes
    (child : Option (Slot × JsonValue)) : (withChild child container).Takes slot := by
  cases child with
  | none => exact htakes
  | some child => exact htakes.setSlot child.2

end

/-! ### The value shown around a slot -/

theorem shownWith_cons (child : Option (Slot × JsonValue)) (frame : Frame) (rest : List Frame)
    (root : Option JsonValue) :
    shownWith child (frame :: rest) root =
      shownWith (frame.slot.map fun slot =>
        (slot, (if rest.length < maxReportedDepth then withChild child frame.container
          else frame.container.emptied).toJson)) rest root :=
  rfl

/-- A container inside which changes are reported is shown with what is in it. -/
theorem shownWith_reported {frame : Frame} (hfits : Fits (frame :: rest))
    (hinside : frame.reportsInside = true) (child : Option (Slot × JsonValue))
    (root : Option JsonValue) :
    ∃ slot above, frame.slot = some slot ∧ frame.path = some above ∧ SlotFits slot rest ∧
      pathIn (some slot) rest = some above ∧
      shownWith child (frame :: rest) root =
        shownWith (some (slot, (withChild child frame.container).toJson)) rest root := by
  obtain ⟨hframe, hreports, hbelow, hrest⟩ := hfits
  rw [hinside] at hreports
  obtain ⟨above, habove, hlength⟩ : ∃ above, frame.path = some above ∧
      above.length < maxReportedDepth := by
    cases hpath : frame.path with
    | none =>
      rw [hpath] at hreports
      simp at hreports
    | some above =>
      rw [hpath] at hreports
      exact ⟨above, rfl, by simpa using hreports⟩
  rw [habove] at hframe
  cases hslot : frame.slot with
  | none =>
    rw [hslot] at hframe
    simp [pathIn] at hframe
  | some slot =>
    rw [hslot] at hframe
    have hfit := hbelow slot hslot
    have hdepth := length_of_pathIn hrest hfit hframe.symm
    refine ⟨slot, above, rfl, habove, hfit, hframe.symm, ?_⟩
    rw [shownWith_cons, hslot, if_pos (by omega)]
    rfl

/-- At a reported path stands the value of the slot, and replacing it there is writing it at the
slot. -/
theorem shownWith_at (hfits : Fits stack)
    (hslot : SlotFits slot stack) (hpath : pathIn (some slot) stack = some path)
    (root : Option JsonValue) (value : JsonValue) :
    ∃ whole, shownWith (some (slot, value)) stack root = some whole ∧
      whole.getAt path = some value ∧
      ∀ other, shownWith (some (slot, other)) stack root = some (whole.replaceAt path other) := by
  induction stack generalizing slot path value with
  | nil =>
    rw [hslot] at hpath ⊢
    cases hpath
    exact ⟨value, rfl, rfl, fun _ => rfl⟩
  | cons frame rest ih =>
    obtain ⟨hinside, above, seg, habove, hseg, rfl⟩ := (pathIn_cons hslot).mp hpath
    have hshown (written : JsonValue) := shownWith_reported hfits hinside
      (some (slot, written)) root
    obtain ⟨slot', above', hslot', habove', hfit, hpath', hvalue⟩ := hshown value
    rw [habove, some_inj] at habove'
    subst habove'
    obtain ⟨whole, hwhole, hget, hreplace⟩ :=
      ih hfits.2.2.2 hfit hpath' (setSlot slot value frame.container).toJson
    refine ⟨whole, hvalue.trans hwhole, ?_, fun other => ?_⟩
    · rw [getAt_append_of_eq hget, getAt_cons, child_setSlot hslot hseg value]
      rfl
    obtain ⟨slot'', -, hslot'', -, -, -, hother⟩ := hshown other
    rw [hslot', some_inj] at hslot''
    subst hslot''
    rw [hother, replaceAt_append hget, replaceAt_cons
      (child_setSlot hslot hseg value), replaceAt_nil, setChild_setSlot hslot hseg]
    exact hreplace _

/-- A value that is set where it is reported shows at its slot. -/
theorem apply_set (hfits : Fits stack)
    (hslot : SlotFits slot stack) (hpath : pathIn (some slot) stack = some path)
    (root : Option JsonValue) (child : Option JsonValue) (value : JsonValue) :
    (Change.set path value).apply (shownWith (child.map fun old => (slot, old)) stack root) =
      some (shownWith (some (slot, value)) stack root) := by
  cases stack with
  | nil =>
    rw [hslot] at hpath ⊢
    cases hpath
    rfl
  | cons frame rest =>
    obtain ⟨hinside, above, seg, habove, hseg, rfl⟩ := (pathIn_cons hslot).mp hpath
    have hshown (child : Option (Slot × JsonValue)) := shownWith_reported hfits hinside child root
    obtain ⟨slot', above', hslot', habove', hfit, hpath', hbefore⟩ :=
      hshown (child.map fun old => (slot, old))
    rw [habove, some_inj] at habove'
    subst habove'
    obtain ⟨slot'', -, hslot'', -, -, -, hafter⟩ := hshown (some (slot, value))
    rw [hslot', some_inj] at hslot''
    subst hslot''
    obtain ⟨whole, hwhole, hget, hreplace⟩ := shownWith_at hfits.2.2.2 hfit hpath' root
      (withChild (child.map fun old => (slot, old)) frame.container).toJson
    obtain ⟨hkind, hdefine⟩ := defineProperty_slot
      (withChild_takes hslot (child.map fun old => (slot, old))) hseg value
    have hwritten : setSlot slot value
        (withChild (child.map fun old => (slot, old)) frame.container) =
        setSlot slot value frame.container := by
      cases child with
      | none => rfl
      | some old => exact setSlot_setSlot slot old value frame.container
    rw [hwritten] at hdefine
    rw [hbefore, hafter, hwhole, Change.apply, getLast?_concat, dropLast_concat]
    simp only [bind_eq_bind, bind_some, hget, hdefine, if_pos hkind]
    rw [← hreplace]
    rfl

/-- Text that is appended where it is reported shows at its slot. -/
theorem apply_append (hfits : Fits stack)
    (hslot : SlotFits slot stack) (hpath : pathIn (some slot) stack = some path)
    (root : Option JsonValue) (before text : JsString) :
    (Change.append path text).apply (shownWith (some (slot, .str before)) stack root) =
      some (shownWith (some (slot, .str (before ++ text))) stack root) := by
  obtain ⟨whole, hwhole, hget, hreplace⟩ := shownWith_at hfits hslot hpath root (.str before)
  rw [hwhole, Change.apply]
  simp only [bind_eq_bind, bind_some, hget]
  rw [← hreplace]

/-- A slot without a reported path does not show. -/
theorem shownWith_of_unreported (hfits : Fits stack)
    (hslot : SlotFits slot stack) (hpath : pathIn (some slot) stack = none)
    (root : Option JsonValue) (value : JsonValue) :
    shownWith (some (slot, value)) stack root = shownWith none stack root := by
  induction stack generalizing slot value with
  | nil =>
    rw [hslot] at hpath
    simp [pathIn] at hpath
  | cons frame rest ih =>
    obtain ⟨hframe, hreports, hbelow, hrest⟩ := hfits
    rw [shownWith_cons, shownWith_cons]
    cases hframeSlot : frame.slot with
    | none => rfl
    | some slot' =>
      rw [hframeSlot] at hframe
      have hfit := hbelow slot' hframeSlot
      cases habove : frame.path with
      | none =>
        -- the container itself is not reported
        rw [habove] at hframe
        exact (ih hrest hfit hframe.symm _).trans (ih hrest hfit hframe.symm _).symm
      | some above =>
        have hdepth := length_of_pathIn hrest hfit (hframe.symm.trans habove)
        have hdeep : ¬ rest.length < maxReportedDepth := by
          intro hshallow
          have hinside : frame.reportsInside = true := by
            rw [hreports, habove]
            simpa [hdepth] using hshallow
          obtain ⟨seg, hseg⟩ := hslot.exists_seg
          have hsome : pathIn (some slot) (frame :: rest) = some (above ++ [seg]) :=
            (pathIn_cons hslot).mpr ⟨hinside, above, seg, habove, hseg, rfl⟩
          rw [hpath] at hsome
          cases hsome
        rw [if_neg hdeep, if_neg hdeep]

end Hummin.StreamingJson
