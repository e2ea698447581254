/-
Slices of lists by a start and an end, as arrays are cut: how a slice splits at
a position inside it and how it loses its first or last element.
-/
import Mathlib.Data.List.Basic
import Mathlib.Data.List.TakeDrop

namespace Hummin

open List

universe u

variable {V : Type u}

/-- `Array.prototype.slice` with natural arguments. -/
def slice (items : List V) (start end_ : Nat) : List V :=
  (items.take end_).drop start

theorem slice_self (items : List V) (at_ : Nat) : slice items at_ at_ = [] := by
  apply drop_eq_nil_of_le
  exact length_take_le at_ items

variable {items : List V} {start end_ : Nat}

theorem length_slice (hend : end_ ≤ items.length) :
    (slice items start end_).length = end_ - start := by
  rw [slice, length_drop, length_take, Nat.min_eq_left hend]

theorem slice_append_slice {middle end_ : Nat} (hstart : start ≤ middle) (hmiddle : middle ≤ end_) :
    slice items start middle ++ slice items middle end_ = slice items start end_ := by
  have htake : items.take middle = (items.take end_).take middle := by
    rw [take_take, Nat.min_eq_left hmiddle]
  have hdrop : (items.take end_).drop middle =
      ((items.take end_).drop start).drop (middle - start) := by
    rw [drop_drop, Nat.add_sub_cancel' hstart]
  rw [slice, slice, slice, htake, drop_take, hdrop, take_append_drop]

theorem slice_succ {at_ : Nat} {item : V} (hitem : items[at_]? = some item) :
    slice items at_ (at_ + 1) = [item] := by
  obtain ⟨hlt, heq⟩ := List.getElem?_eq_some_iff.mp hitem
  rw [slice, take_succ_eq_append_getElem hlt, heq,
    drop_left' (length_take_of_le (Nat.le_of_lt hlt))]

variable {item : V}

theorem slice_cons (hitem : items[start]? = some item) (hlt : start < end_) :
    slice items start end_ = item :: slice items (start + 1) end_ := by
  rw [← slice_append_slice (Nat.le_succ start) hlt, slice_succ hitem]
  rfl

theorem take_slice {count : Nat} (hcount : count ≤ end_ - start) :
    (slice items start end_).take count = slice items start (start + count) := by
  rw [slice, slice, take_drop, take_take]
  rcases Nat.lt_or_ge end_ (start + count) with hlt | hle
  · -- the slice is empty, and so is what is taken of it
    obtain rfl : count = 0 := by omega
    rw [Nat.add_zero, drop_eq_nil_of_le (by rw [length_take]; omega),
      drop_eq_nil_of_le (length_take_le start items)]
  · rw [Nat.min_eq_left hle]

/-- The reversed slice begins with its last elements. -/
theorem take_reverse_slice {count : Nat}
    (hend : end_ ≤ items.length) (hcount : count ≤ end_ - start) :
    (slice items start end_).reverse.take count = (slice items (end_ - count) end_).reverse := by
  have hlength : (slice items (end_ - count) end_).reverse.length = count := by
    rw [length_reverse, length_slice hend]
    omega
  rcases Nat.lt_or_ge (end_ - count) start with hlt | hle
  · have hzero : count = 0 := by
      clear hlength
      omega
    rw [hzero, Nat.sub_zero, slice_self]
    rfl
  · rw [← slice_append_slice hle (Nat.sub_le end_ count), reverse_append, take_left' hlength]

theorem mem_of_mem_slice (hmem : item ∈ slice items start end_) : item ∈ items :=
  mem_of_mem_take (mem_of_mem_drop hmem)

end Hummin
