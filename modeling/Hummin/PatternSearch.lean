/-
The first place of a pattern in a text, and how the search fares when the text grows at either
end.
-/
import Mathlib.Data.List.Infix

namespace Hummin

open List

universe u

variable {α : Type u} [DecidableEq α]

/-- The first position at which a pattern stands in a text. -/
def firstIndexOf (pattern : List α) : List α → Option Nat
  | [] => if pattern = [] then some 0 else none
  | unit :: rest =>
    if pattern <+: unit :: rest then some 0 else (firstIndexOf pattern rest).map (· + 1)

variable {pattern text before after more : List α}

theorem firstIndexOf_eq_none : firstIndexOf pattern text = none ↔ ¬ pattern <:+: text := by
  induction text with
  | nil =>
    rw [firstIndexOf, infix_nil]
    by_cases hpattern : pattern = [] <;> simp [hpattern]
  | cons unit rest ih =>
    rw [firstIndexOf, infix_cons_iff]
    by_cases hstarts : pattern <+: unit :: rest
    · simp [hstarts]
    · simp [hstarts, ih]

/-- The pattern is found at the end of what stands before it when it does not stand earlier. -/
theorem firstIndexOf_of_split (hpattern : pattern ≠ [])
    (hfirst : ¬ pattern <:+: before ++ pattern.dropLast) :
    firstIndexOf pattern (before ++ pattern ++ after) = some before.length := by
  induction before with
  | nil =>
    cases pattern with
    | nil => exact absurd rfl hpattern
    | cons unit rest =>
      rw [nil_append, cons_append, firstIndexOf]
      exact if_pos (prefix_append (unit :: rest) after)
  | cons unit before ih =>
    rw [cons_append, infix_cons_iff, not_or] at hfirst
    rw [cons_append, cons_append, firstIndexOf, if_neg, ih hfirst.2]
    · rfl
    intro hstarts
    refine hfirst.1 (@prefix_of_prefix_length_le _ _
      (unit :: (before ++ pattern.dropLast)) _ hstarts ?_ ?_)
    · rw [append_assoc]
      refine cons_prefix_cons.mpr ⟨rfl, (prefix_append_right_inj before).mpr ?_⟩
      exact (List.dropLast_prefix pattern).trans (prefix_append pattern after)
    have := length_pos_of_ne_nil hpattern
    simp only [length_cons, length_append, length_dropLast]
    omega

theorem firstIndexOf_eq_some_iff (hpattern : pattern ≠ []) {index : Nat} :
    firstIndexOf pattern text = some index ↔ ∃ before after, text = before ++ pattern ++ after ∧
      before.length = index ∧ ¬ pattern <:+: before ++ pattern.dropLast := by
  constructor
  · intro hindex
    induction text generalizing index with
    | nil => simp [firstIndexOf, hpattern] at hindex
    | cons unit rest ih =>
      rw [firstIndexOf] at hindex
      by_cases hstarts : pattern <+: unit :: rest
      · obtain ⟨after, hafter⟩ := hstarts
        rw [if_pos ⟨after, hafter⟩] at hindex
        refine ⟨[], after, by simpa using hafter.symm, by simpa using hindex, fun hinfix => ?_⟩
        have hlength := hinfix.length_le
        have := length_pos_of_ne_nil hpattern
        simp only [nil_append, length_dropLast] at hlength
        omega
      rw [if_neg hstarts] at hindex
      obtain ⟨later, hlater, rfl⟩ := Option.map_eq_some_iff.mp hindex
      obtain ⟨before, after, rfl, rfl, hfirst⟩ := ih hlater
      refine ⟨unit :: before, after, rfl, rfl, ?_⟩
      rw [cons_append, infix_cons_iff, not_or]
      refine ⟨fun hearly => hstarts (hearly.trans ?_), hfirst⟩
      rw [append_assoc]
      refine cons_prefix_cons.mpr ⟨rfl, (prefix_append_right_inj before).mpr ?_⟩
      exact (List.dropLast_prefix pattern).trans (prefix_append pattern after)
  · rintro ⟨before, after, rfl, rfl, hfirst⟩
    exact firstIndexOf_of_split hpattern hfirst

theorem firstIndexOf_append (hpattern : pattern ≠ []) {index : Nat}
    (hindex : firstIndexOf pattern text = some index) (more : List α) :
    firstIndexOf pattern (text ++ more) = some index := by
  obtain ⟨before, after, rfl, hlength, hfirst⟩ := (firstIndexOf_eq_some_iff hpattern).mp hindex
  exact (firstIndexOf_eq_some_iff hpattern).mpr
    ⟨before, after ++ more, by simp only [append_assoc], hlength, hfirst⟩

end Hummin
