/-
Wire formats as pairs of a writer and a reader.  A writer appends bytes to the
content of a sink, a reader takes bytes from the front of its input; the two
carry a value when the reader returns it from what the writer appended, whatever
follows.  The rules below build the pair of a whole format from the pairs of its
fields, in the order in which both run.
-/
import Mathlib.Control.Monad.Basic
import Mathlib.Data.List.Basic

namespace Hummin.Wire

open List

variable {σ ε α β κ : Type}

/-- Where bytes are written: what was written so far, in the states that can
occur. -/
structure Sink (σ : Type) where
  content : σ → List UInt8
  Valid : σ → Prop

/-- A reader's state is what is left of its input. -/
abbrev Reader (ε : Type) := StateT (List UInt8) (Except ε)

abbrev Writing (σ ε : Type) := StateT σ (Except ε)

/-- At least `count` bytes are left. -/
def ensure (count : Nat) (failure : ε) : Reader ε Unit := fun bytes =>
  if bytes.length < count then .error failure else .ok ((), bytes)

/-- The reader takes exactly these bytes and returns the value. -/
def Reads (read : Reader ε α) (bytes : List UInt8) (value : α) : Prop :=
  ∀ rest, read (bytes ++ rest) = .ok (value, rest)

/-- The writer appends exactly these bytes. -/
def Writes (sink : Sink σ) (write : Writing σ ε Unit) (bytes : List UInt8) : Prop :=
  ∀ state, sink.Valid state → ∃ next, write state = .ok ((), next) ∧
    sink.Valid next ∧ sink.content next = sink.content state ++ bytes

/-- What is written for the value takes `least` bytes or more and reads as it. -/
def Carries (sink : Sink σ) (least : Nat) (write : Writing σ ε Unit)
    (read : Reader ε α) (value : α) : Prop :=
  ∃ bytes, least ≤ bytes.length ∧ Writes sink write bytes ∧
    Reads read bytes value

variable {least : Nat} {write : Writing σ ε Unit} {read : Reader ε α} {next : α → Reader ε β}
    {bytes : List UInt8}

theorem bind_of_ok {rest : List UInt8} {value : α}
    (hread : read bytes = .ok (value, rest)) (next : α → Reader ε β) :
    (read >>= next) bytes = next value rest := by
  change (read bytes >>= fun step => next step.1 step.2) = _
  rw [hread]
  rfl

theorem Reads.pure (value : α) : Reads (ε := ε) (Pure.pure value) [] value :=
  fun _ => rfl

theorem Reads.bind {more : List UInt8} {value : α} {result : β}
    (hread : Reads read bytes value) (hnext : Reads (next value) more result) :
    Reads (read >>= next) (bytes ++ more) result := by
  intro rest
  rw [append_assoc, bind_of_ok (hread (more ++ rest)) next]
  exact hnext rest

variable {value : α} {result : β}

theorem Reads.last (hread : Reads read bytes value) (hnext : next value = Pure.pure result) :
    Reads (read >>= next) bytes result := by
  intro rest
  rw [bind_of_ok (hread rest) next, hnext]
  rfl

/-- A check that enough is left passes when what follows is long enough. -/
theorem Reads.ensure (hread : Reads read bytes value) {count : Nat} (hcount : count ≤ bytes.length)
    (failure : ε) :
    Reads (Wire.ensure count failure >>= fun _ => read) bytes value := by
  intro rest
  have hpass : Wire.ensure count failure (bytes ++ rest) =
      .ok ((), bytes ++ rest) := by
    rw [Wire.ensure, if_neg (by rw [length_append]; omega)]
  rw [bind_of_ok hpass fun _ => read]
  exact hread rest

variable {sink : Sink σ}

theorem Writes.pure : Writes (ε := ε) sink (Pure.pure ()) [] := by
  intro state hvalid
  exact ⟨state, rfl, hvalid, (append_nil _).symm⟩

theorem Writes.bind {next : Writing σ ε Unit} {bytes more : List UInt8}
    (hwrite : Writes sink write bytes) (hnext : Writes sink next more) :
    Writes sink (write >>= fun _ => next) (bytes ++ more) := by
  intro state hvalid
  obtain ⟨middle, hmiddle, hmiddleValid, hbytes⟩ := hwrite state hvalid
  obtain ⟨last, hlast, hlastValid, hmore⟩ := hnext middle hmiddleValid
  refine ⟨last, ?_, hlastValid, ?_⟩
  · change (write state >>= fun step => next step.2) = _
    rw [hmiddle]
    exact hlast
  · rw [hmore, hbytes, append_assoc]

theorem Carries.mono {less : Nat} {write : Writing σ ε Unit} {read : Reader ε α}
    {value : α} (hcarries : Carries sink least write read value)
    (hless : less ≤ least) : Carries sink less write read value := by
  obtain ⟨bytes, hleast, hwrites, hreads⟩ := hcarries
  exact ⟨bytes, Nat.le_trans hless hleast, hwrites, hreads⟩

theorem Carries.pure (value : α) : Carries (ε := ε) sink 0 (Pure.pure ()) (Pure.pure value) value :=
  ⟨[], Nat.le_refl 0, .pure, .pure value⟩

/-- One field after another. -/
theorem Carries.bind {more : Nat} {write others : Writing σ ε Unit}
    {read : Reader ε α} {next : α → Reader ε β} {value : α} {result : β}
    (hfield : Carries sink least write read value)
    (hothers : Carries sink more others (next value) result) :
    Carries sink (least + more) (write >>= fun _ => others) (read >>= next)
      result := by
  obtain ⟨bytes, hleast, hwrites, hreads⟩ := hfield
  obtain ⟨tail, hmore, htailWrites, htailReads⟩ := hothers
  refine ⟨bytes ++ tail, ?_, hwrites.bind htailWrites, hreads.bind htailReads⟩
  rw [length_append]
  omega

/-- A field and what follows it, however long. -/
theorem Carries.field {more : Nat} {write others : Writing σ ε Unit}
    {read : Reader ε α} {next : α → Reader ε β} {value : α} {result : β}
    (hfield : Carries sink least write read value)
    (hothers : Carries sink more others (next value) result) :
    Carries sink least (write >>= fun _ => others) (read >>= next) result :=
  (hfield.bind hothers).mono (Nat.le_add_right least more)

/-- The last field: what is made of it reads nothing more. -/
theorem Carries.last (hfield : Carries sink least write read value)
    (hnext : next value = Pure.pure result) : Carries sink least write (read >>= next) result := by
  obtain ⟨bytes, hleast, hwrites, hreads⟩ := hfield
  exact ⟨bytes, hleast, hwrites, hreads.last hnext⟩

theorem Carries.ensure {count : Nat} {write : Writing σ ε Unit}
    {read : Reader ε α} {value : α} (hcarries : Carries sink least write read value)
    (hcount : count ≤ least) (failure : ε) :
    Carries sink least write (Wire.ensure count failure >>= fun _ => read)
      value := by
  obtain ⟨bytes, hleast, hwrites, hreads⟩ := hcarries
  exact ⟨bytes, hleast, hwrites, hreads.ensure (Nat.le_trans hcount hleast) failure⟩

/-- Each value in turn, read by a key that is known before; `image` is what is
read for it. -/
theorem Carries.mapM {least : Nat} {write : α → Writing σ ε Unit}
    {read : κ → Reader ε β} {key : α → κ} {image : α → β} {values : List α}
    (hvalues : ∀ value ∈ values,
      Carries sink least (write value) (read (key value)) (image value)) :
    Carries sink (least * values.length) (forM values write)
      ((values.map key).mapM read) (values.map image) := by
  induction values with
  | nil => exact .pure []
  | cons value rest ih =>
    have hrest := ih fun other hother =>
      hvalues other (mem_cons_of_mem value hother)
    have hlast : Carries sink (least * rest.length) (forM rest write)
        ((rest.map key).mapM read >>= fun others =>
          Pure.pure (image value :: others))
        (image value :: rest.map image) := hrest.last rfl
    rw [map_cons, map_cons, mapM_cons, forM_cons, length_cons]
    exact ((hvalues value mem_cons_self).bind hlast).mono
      (Nat.le_of_eq (by rw [Nat.mul_succ, Nat.add_comm]))

/-- As many values as are known before. -/
theorem Carries.replicateM {write : α → Writing σ ε Unit}
    {read : Reader ε β} {image : α → β} {values : List α}
    (hvalues : ∀ value ∈ values, Carries sink least (write value) read (image value)) :
    Carries sink (least * values.length) (forM values write)
      ((replicate values.length ()).mapM fun _ => read)
      (values.map image) := by
  have hmap : values.map (fun _ => ()) = replicate values.length () :=
    map_const'
  rw [← hmap]
  exact Carries.mapM hvalues

end Hummin.Wire
