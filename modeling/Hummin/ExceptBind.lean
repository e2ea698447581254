/-
Inverting computations that may fail: a bind succeeds exactly when both of its
parts do, and a loop over a list succeeds exactly when every round does.
-/
import Mathlib.Data.List.Basic

namespace Hummin

universe u

variable {ε : Type u} {σ τ : Type u} {ι : Type u}

@[simp]
theorem except_bind_ok (value : σ) (next : σ → Except ε τ) :
    ((Except.ok value : Except ε σ) >>= next) = next value := rfl

@[simp]
theorem except_bind_error (failure : ε) (next : σ → Except ε τ) :
    ((Except.error failure : Except ε σ) >>= next) = .error failure := rfl

theorem except_bind_eq_ok_iff (first : Except ε σ) (next : σ → Except ε τ) (result : τ) :
    (first >>= next) = .ok result ↔ ∃ value, first = .ok value ∧ next value = .ok result := by
  cases first with
  | error failure => simp
  | ok value => simp

theorem except_bind_eq_error_iff (first : Except ε σ) (next : σ → Except ε τ) (failure : ε) :
    (first >>= next) = .error failure ↔
      first = .error failure ∨
        ∃ value, first = .ok value ∧ next value = .error failure := by
  cases first with
  | error other => simp
  | ok value => simp

@[simp]
theorem except_pure (value : σ) : (pure value : Except ε σ) = .ok value := rfl

theorem foldlM_except_cons_eq_ok_iff (step : σ → ι → Except ε σ) (start : σ)
    (head : ι) (tail : List ι) (result : σ) :
    (head :: tail).foldlM step start = .ok result ↔
      ∃ middle, step start head = .ok middle ∧
        tail.foldlM step middle = .ok result := by
  rw [List.foldlM_cons, except_bind_eq_ok_iff]

theorem foldlM_except_append_eq_ok_iff (step : σ → ι → Except ε σ) (start : σ)
    (front back : List ι) (result : σ) :
    (front ++ back).foldlM step start = .ok result ↔
      ∃ middle, front.foldlM step start = .ok middle ∧
        back.foldlM step middle = .ok result := by
  rw [List.foldlM_append, except_bind_eq_ok_iff]

/-- A loop none of whose rounds ends in `failure` does not end in it. -/
theorem foldlM_except_ne_error {step : σ → ι → Except ε σ} {failure : ε}
    (hstep : ∀ state item, step state item ≠ .error failure) (start : σ)
    (items : List ι) : items.foldlM step start ≠ .error failure := by
  induction items generalizing start with
  | nil => simp
  | cons head tail ih =>
    rw [List.foldlM_cons]
    intro herror
    rw [except_bind_eq_error_iff] at herror
    rcases herror with hhead | ⟨middle, -, htail⟩
    · exact hstep start head hhead
    · exact ih middle htail

end Hummin
