/-
The tuples of wire operations and their readers: reading back what was written,
and what a reader accepts of arbitrary JSON.
-/
import Hummin.DeltaWire

namespace Hummin.Delta

open List

/-! ### Numbers and paths -/

@[simp]
theorem natural?_natCast (n : Nat) : natural? (n : ℚ) = some n := by
  simp [natural?]

theorem eq_natCast_of_natural? {value : ℚ} {n : Nat}
    (hnat : natural? value = some n) : value = n := by
  unfold natural? at hnat
  split at hnat
  next hint =>
    cases hnat
    have hnum : ((value.num.toNat : ℤ) : ℚ) = value.num := by
      rw [Int.toNat_of_nonneg hint.2]
    rw [← Rat.coe_int_num_of_den_eq_one hint.1]
    exact_mod_cast hnum.symm
  · simp at hnat

theorem safeSegment_eq_ok_iff (raw : JsonValue) (seg : Seg) :
    safeSegment raw = .ok seg ↔ raw = seg.toJson ∧ Seg.isReserved seg = false := by
  constructor
  · intro hok
    cases raw with
    | null | bool | arr | obj => simp [safeSegment] at hok
    | num value =>
      rw [safeSegment] at hok
      split at hok
      next n hnat =>
        cases hok
        rw [eq_natCast_of_natural? hnat]
        exact ⟨rfl, rfl⟩
      · simp at hok
    | str name =>
      rw [safeSegment] at hok
      split at hok
      · simp at hok
      next hsafe =>
        cases hok
        exact ⟨rfl, by simpa [Seg.isReserved] using hsafe⟩
  rintro ⟨rfl, hsafe⟩
  cases seg with
  | key name =>
    rw [Seg.isReserved] at hsafe
    rw [Seg.toJson, safeSegment, hsafe]
    rfl
  | index at_ => simp [Seg.toJson, safeSegment]

/-- The accepted paths are the JSON of safe paths. -/
theorem safePath_eq_ok_iff (segments : List JsonValue) (path : Path) :
    safePath segments = .ok path ↔
      segments = path.map Seg.toJson ∧ Path.hasReserved path = false := by
  induction segments generalizing path with
  | nil =>
    constructor
    · intro hok
      cases hok
      exact ⟨rfl, rfl⟩
    rintro ⟨hnil, -⟩
    rw [eq_comm, map_eq_nil_iff] at hnil
    rw [hnil]
    rfl
  | cons raw rest ih =>
    rw [safePath, except_bind_eq_ok_iff]
    constructor
    · rintro ⟨seg, hseg, hok⟩
      rw [except_bind_eq_ok_iff] at hok
      obtain ⟨tail, htail, hok⟩ := hok
      cases hok
      obtain ⟨rfl, hsafe⟩ := (safeSegment_eq_ok_iff raw seg).mp hseg
      obtain ⟨rfl, hrest⟩ := (ih tail).mp htail
      refine ⟨rfl, ?_⟩
      simpa [Path.hasReserved, hsafe] using hrest
    rintro ⟨heq, hsafe⟩
    cases path with
    | nil => simp at heq
    | cons seg tail =>
      simp only [map_cons, cons.injEq] at heq
      simp only [Path.hasReserved, any_cons, Bool.or_eq_false_iff] at hsafe
      refine ⟨seg, (safeSegment_eq_ok_iff raw seg).mpr ⟨heq.1, hsafe.1⟩, ?_⟩
      rw [(ih tail).mpr ⟨heq.2, hsafe.2⟩]
      rfl

theorem naturalArg_eq_ok_iff (message : String) (raw : JsonValue) (n : Nat) :
    naturalArg message raw = .ok n ↔ raw = .num n := by
  constructor
  · intro hok
    cases raw with
    | null | bool | str | arr | obj => simp [naturalArg] at hok
    | num value =>
      rw [naturalArg] at hok
      split at hok
      next m hnat =>
        cases hok
        rw [eq_natCast_of_natural? hnat]
      · simp at hok
  · rintro rfl
    simp [naturalArg]

theorem permutationIndices_eq_ok_iff (items : List JsonValue) (permutation : List Nat) :
    permutationIndices items = .ok permutation ↔ items = permutation.map natJson := by
  induction items generalizing permutation with
  | nil =>
    constructor
    · intro hok
      cases hok
      rfl
    intro hnil
    rw [eq_comm, map_eq_nil_iff] at hnil
    rw [hnil]
    rfl
  | cons raw rest ih =>
    rw [permutationIndices, except_bind_eq_ok_iff]
    constructor
    · rintro ⟨index, hindex, hok⟩
      rw [except_bind_eq_ok_iff] at hok
      obtain ⟨tail, htail, hok⟩ := hok
      cases hok
      rw [(ih tail).mp htail, (naturalArg_eq_ok_iff _ raw index).mp hindex]
      rfl
    intro heq
    cases permutation with
    | nil => simp at heq
    | cons index tail =>
      simp only [map_cons, cons.injEq] at heq
      refine ⟨index, ?_, ?_⟩
      · rw [heq.1]
        simp [naturalArg, natJson]
      rw [(ih tail).mpr heq.2]
      rfl

/-! ### Tuples read back -/

def Edit.Valid : Edit → Prop
  | .m permutation => assertPermutation permutation = .ok ()
  | _ => True

def PathRef.Safe : PathRef → Prop
  | .inline path => Path.hasReserved path = false
  | _ => True

variable {raw : JsonValue} {ref : PathRef}

theorem okRef_fields (hsafe : ref.Safe) {raw : JsonValue}
    (hraw : ref.fields = [raw]) : okRef raw = .ok ref := by
  cases ref with
  | omitted => simp [PathRef.fields] at hraw
  | id number =>
    simp only [PathRef.fields, cons.injEq, and_true] at hraw
    rw [← hraw]
    simp [okRef]
  | inline path =>
    simp only [PathRef.fields, cons.injEq, and_true] at hraw
    rw [← hraw, Path.toJson, okRef, (safePath_eq_ok_iff _ path).mpr ⟨rfl, hsafe⟩]
    rfl

theorem spliceArg_natCast (index remove : Nat) (items : List JsonValue) :
    spliceArg (.num index) (.num remove) (.arr () items) = .ok (.p index remove items) := by
  simp [spliceArg, naturalArg, itemsArg]

variable {permutation : List Nat}

theorem permutationArg_natCast (hvalid : assertPermutation permutation = .ok ()) :
    permutationArg (.arr () (permutation.map natJson)) = .ok permutation := by
  rw [permutationArg, (permutationIndices_eq_ok_iff _ permutation).mpr rfl, except_bind_ok, hvalid]
  rfl

variable {change : Edit}

/-- Arity tells the short form of an edit from the long one. -/
theorem readWireOp_edit (hsafe : ref.Safe) (hvalid : change.Valid) :
    readWireOp (WireOp.edit ref change).toTuple = .ok (.edit ref change) := by
  have hread : ref = .omitted ∨
      ∃ raw, ref.fields = [raw] ∧ okRef raw = .ok ref := by
    cases ref with
    | omitted => exact Or.inl rfl
    | _ => exact Or.inr ⟨_, rfl, okRef_fields hsafe rfl⟩
  rcases hread with rfl | ⟨raw, hfields, hraw⟩
  · cases change with
    | a text => simp [WireOp.toTuple, tuple, PathRef.fields, Edit.payload,
        Edit.verb, readWireOp, js, textArg]
    | t count => simp [WireOp.toTuple, tuple, PathRef.fields, Edit.payload,
        Edit.verb, readWireOp, js, naturalArg]
    | p index remove items => simp [WireOp.toTuple, tuple, PathRef.fields,
        Edit.payload, Edit.verb, readWireOp, js, spliceArg_natCast]
    | m permutation => simp [WireOp.toTuple, tuple, PathRef.fields,
        Edit.payload, Edit.verb, readWireOp, js,
        permutationArg_natCast hvalid]
    | _ => simp [WireOp.toTuple, tuple, PathRef.fields, Edit.payload, Edit.verb, readWireOp, js]
  cases change with
  | s value => simp [WireOp.toTuple, tuple, hfields, Edit.payload, Edit.verb, readWireOp, js, hraw]
  | d => simp [WireOp.toTuple, tuple, hfields, Edit.payload, Edit.verb, readWireOp, js, hraw]
  | a text => simp [WireOp.toTuple, tuple, hfields, Edit.payload,
      Edit.verb, readWireOp, js, hraw, textArg]
  | t count => simp [WireOp.toTuple, tuple, hfields, Edit.payload,
      Edit.verb, readWireOp, js, hraw, naturalArg]
  | p index remove items => simp [WireOp.toTuple, tuple, hfields,
      Edit.payload, Edit.verb, readWireOp, js, hraw, spliceArg_natCast]
  | m permutation => simp [WireOp.toTuple, tuple, hfields, Edit.payload,
      Edit.verb, readWireOp, js, hraw, permutationArg_natCast hvalid]

theorem readWireOp_r (value : JsonValue) :
    readWireOp (WireOp.r value).toTuple = .ok (.r value) := by
  simp [WireOp.toTuple, tuple, readWireOp, js]

theorem readWireOp_define (id : Nat) {path : Path} (hsafe : Path.hasReserved path = false) :
    readWireOp (WireOp.define id path).toTuple = .ok (.define id path) := by
  have hpath := (safePath_eq_ok_iff _ path).mpr ⟨rfl, hsafe⟩
  simp [WireOp.toTuple, tuple, Path.toJson, readWireOp, js, hpath]

/-! ### What a reader accepts -/

def WireOp.Safe : WireOp → Prop
  | .r _ => True
  | .edit ref change => ref.Safe ∧ change.Valid
  | .define _ path => Path.hasReserved path = false

theorem fields_of_okRef (hok : okRef raw = .ok ref) : ref.fields = [raw] ∧ ref.Safe := by
  cases raw with
  | null | bool | str | obj => simp [okRef] at hok
  | num value =>
    rw [okRef] at hok
    split at hok
    next n hnat =>
      cases hok
      rw [eq_natCast_of_natural? hnat]
      exact ⟨rfl, trivial⟩
    · simp at hok
  | arr mark segments =>
    rw [okRef, except_bind_eq_ok_iff] at hok
    obtain ⟨path, hpath, hok⟩ := hok
    cases hok
    obtain ⟨rfl, hsafe⟩ := (safePath_eq_ok_iff segments path).mp hpath
    exact ⟨rfl, hsafe⟩

theorem payload_of_textArg {message : String} {text : JsString}
    (hok : textArg message raw = .ok text) :
    (Edit.a text).payload = [raw] ∧ (Edit.a text).Valid := by
  cases raw with
  | null | bool | num | arr | obj => simp [textArg] at hok
  | str other =>
    cases hok
    exact ⟨rfl, trivial⟩

theorem payload_of_spliceArg {index remove items : JsonValue}
    (hok : spliceArg index remove items = .ok change) :
    change.verb = 'p' ∧ change.payload = [index, remove, items] ∧ change.Valid := by
  rw [spliceArg, except_bind_eq_ok_iff] at hok
  obtain ⟨i, hindex, hok⟩ := hok
  rw [except_bind_eq_ok_iff] at hok
  obtain ⟨r, hremove, hok⟩ := hok
  rw [except_bind_eq_ok_iff] at hok
  obtain ⟨elements, hitems, hok⟩ := hok
  cases hok
  rw [(naturalArg_eq_ok_iff _ index i).mp hindex, (naturalArg_eq_ok_iff _ remove r).mp hremove]
  cases items with
  | null | bool | num | str | obj => simp [itemsArg] at hitems
  | arr mark elements' =>
    cases hitems
    exact ⟨rfl, rfl, trivial⟩

theorem payload_of_permutationArg (hok : permutationArg raw = .ok permutation) :
    (Edit.m permutation).payload = [raw] ∧ (Edit.m permutation).Valid := by
  cases raw with
  | null | bool | num | str | obj => simp [permutationArg] at hok
  | arr mark items =>
    rw [permutationArg, except_bind_eq_ok_iff] at hok
    obtain ⟨indices, hindices, hok⟩ := hok
    rw [except_bind_eq_ok_iff] at hok
    obtain ⟨accepted, haccepted, hok⟩ := hok
    obtain rfl := Except.ok.inj hok
    rw [(permutationIndices_eq_ok_iff items indices).mp hindices]
    exact ⟨rfl, haccepted⟩

theorem fields_of_omitted : ∀ ref, Except.ok (ε := Failure) PathRef.omitted = .ok ref →
    ref.fields = [] ∧ ref.Safe :=
  fun _ hok => Except.ok.inj hok ▸ ⟨rfl, trivial⟩

variable {verb : JsonValue} {head payload : List JsonValue} {wire : WireOp}
  {readRef : Except Failure PathRef}

/-- A tuple that names its verb and carries a reference and a payload. -/
theorem toTuple_of_edit
    (href : ∀ ref, readRef = .ok ref → ref.fields = head ∧ ref.Safe)
    (hok : (do let ref ← readRef; .ok (.edit ref change)) = Except.ok wire)
    (hverb : verb = .str (js [change.verb]))
    (hpayload : change.payload = payload ∧ change.Valid) :
    JsonTree.arr () (verb :: (head ++ payload)) = wire.toTuple ∧ wire.Safe := by
  rw [except_bind_eq_ok_iff] at hok
  obtain ⟨ref, hread, hok⟩ := hok
  cases hok
  obtain ⟨hfields, hsafe⟩ := href ref hread
  rw [WireOp.toTuple, tuple, hverb, hfields, hpayload.1]
  exact ⟨rfl, hsafe, hpayload.2⟩

/-- The same where the change is read from the payload. -/
theorem toTuple_of_change {β : Type} {readChange : Except Failure β} {change : β → Edit}
    (href : ∀ ref, readRef = .ok ref → ref.fields = head ∧ ref.Safe)
    (hok : (do let ref ← readRef; let value ← readChange; .ok (.edit ref (change value))) =
      Except.ok wire)
    (hchange : ∀ value, readChange = .ok value → verb = .str (js [(change value).verb]) ∧
      (change value).payload = payload ∧ (change value).Valid) :
    JsonTree.arr () (verb :: (head ++ payload)) = wire.toTuple ∧ wire.Safe := by
  rw [except_bind_eq_ok_iff] at hok
  obtain ⟨ref, hread, hok⟩ := hok
  rw [except_bind_eq_ok_iff] at hok
  obtain ⟨value, hvalue, hok⟩ := hok
  obtain ⟨hverb, hpayload⟩ := hchange value hvalue
  exact toTuple_of_edit (fun _ heq => Except.ok.inj heq ▸ href ref hread) hok hverb hpayload

/-- `assertValidWireOp` accepts only the tuples of safe wire operations. -/
theorem toTuple_of_readWireOp (hok : readWireOp raw = .ok wire) :
    raw = wire.toTuple ∧ wire.Safe := by
  cases raw with
  | null | bool | num | str | obj => simp [readWireOp] at hok
  | arr mark parts =>
    cases parts with
    | nil => simp [readWireOp] at hok
    | cons verb fields =>
      rw [readWireOp.eq_def] at hok
      simp only at hok
      split at hok
      next hverb =>
        split at hok
        · cases hok
          exact ⟨by rw [hverb]; rfl, trivial⟩
        · simp at hok
      split at hok
      next hverb =>
        split at hok
        · exact toTuple_of_edit (fun _ => fields_of_okRef) hok hverb ⟨rfl, trivial⟩
        · exact toTuple_of_edit fields_of_omitted hok hverb ⟨rfl, trivial⟩
        · simp at hok
      split at hok
      next hverb =>
        split at hok
        · exact toTuple_of_edit (fun _ => fields_of_okRef) hok hverb ⟨rfl, trivial⟩
        · exact toTuple_of_edit fields_of_omitted hok hverb ⟨rfl, trivial⟩
        · simp at hok
      split at hok
      next hverb =>
        split at hok
        · exact toTuple_of_change (fun _ => fields_of_okRef) hok
            (fun _ htext => ⟨hverb, payload_of_textArg htext⟩)
        · exact toTuple_of_change fields_of_omitted hok
            (fun _ htext => ⟨hverb, payload_of_textArg htext⟩)
        · simp at hok
      split at hok
      next hverb =>
        have hcounted : ∀ {rest count}, naturalArg "t count" rest = .ok count →
            (Edit.t count).payload = [rest] ∧ (Edit.t count).Valid := by
          intro rest count hcount
          rw [(naturalArg_eq_ok_iff _ rest count).mp hcount]
          exact ⟨rfl, trivial⟩
        split at hok
        · exact toTuple_of_change (fun _ => fields_of_okRef) hok
            (fun _ hcount => ⟨hverb, hcounted hcount⟩)
        · exact toTuple_of_change fields_of_omitted hok
            (fun _ hcount => ⟨hverb, hcounted hcount⟩)
        · simp at hok
      split at hok
      next hverb =>
        have hspliced : ∀ {index remove items change}, spliceArg index remove items = .ok change →
            verb = .str (js [change.verb]) ∧ change.payload = [index, remove, items] ∧
              change.Valid := by
          intro index remove items change hchange
          obtain ⟨hp, hpayload⟩ := payload_of_spliceArg hchange
          exact ⟨hp ▸ hverb, hpayload⟩
        split at hok
        · exact toTuple_of_change (fun _ => fields_of_okRef) hok (fun _ => hspliced)
        · exact toTuple_of_change fields_of_omitted hok (fun _ => hspliced)
        · simp at hok
      split at hok
      next hverb =>
        split at hok
        · exact toTuple_of_change (fun _ => fields_of_okRef) hok
            (fun _ hread => ⟨hverb, payload_of_permutationArg hread⟩)
        · exact toTuple_of_change fields_of_omitted hok
            (fun _ hread => ⟨hverb, payload_of_permutationArg hread⟩)
        · simp at hok
      split at hok
      next hverb =>
        split at hok
        next id segments =>
          split at hok
          next number hnat =>
            rw [except_bind_eq_ok_iff] at hok
            obtain ⟨path, hpath, hok⟩ := hok
            cases hok
            obtain ⟨rfl, hsafe⟩ := (safePath_eq_ok_iff _ path).mp hpath
            rw [hverb, eq_natCast_of_natural? hnat]
            exact ⟨rfl, hsafe⟩
          · simp at hok
        · simp at hok
      · simp at hok

/-- A valid operation's tuple passes `assertValidOp` over arbitrary JSON. -/
theorem readOp_toTuple {op : Op Unit} (hvalid : op.Valid) : readOp op.toTuple = .ok op := by
  have hpath : ∀ nonEmpty : Bool, (nonEmpty = true → op.path ≠ []) →
      pathArg nonEmpty op.path.toJson = .ok op.path := by
    intro nonEmpty hne
    rw [Path.toJson, pathArg, (safePath_eq_ok_iff _ op.path).mpr ⟨rfl, hvalid.safe⟩]
    cases nonEmpty with
    | false => rfl
    | true => simpa using hne rfl
  cases op with
  | r value => simp [Op.toTuple, tuple, readOp, js]
  | a path text =>
    have hread := hpath true fun _ => hvalid.path_ne_nil rfl
    simp only [Op.path] at hread
    simp [Op.toTuple, tuple, readOp, js, hread, textArg]
  | t path count =>
    have hread := hpath true fun _ => hvalid.path_ne_nil rfl
    simp only [Op.path] at hread
    simp [Op.toTuple, tuple, readOp, js, hread, naturalArg]
  | p path index remove items =>
    have hread := hpath false (by simp)
    simp only [Op.path] at hread
    simp [Op.toTuple, tuple, readOp, js, hread, spliceArg_natCast, Edit.at]
  | m path permutation =>
    have hread := hpath false (by simp)
    simp only [Op.path] at hread
    have hpermutation := (assertPermutation_eq_ok_iff permutation).mpr
      ((valid_m_iff path permutation).mp hvalid).2
    simp [Op.toTuple, tuple, readOp, js, hread, permutationArg_natCast hpermutation]
  | _ =>
    have hread := hpath true fun _ => hvalid.path_ne_nil rfl
    simp only [Op.path] at hread
    simp [Op.toTuple, tuple, readOp, js, hread]

end Hummin.Delta
