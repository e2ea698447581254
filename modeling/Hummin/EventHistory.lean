/-
Histories of events, the newest last, and what the past of each event must be.
-/
import Mathlib.Data.List.Basic

namespace Hummin

universe u

variable {ε : Type u}

/-- Every event of a history fits its past. -/
def Along (Fits : List ε → ε → Prop) (history : List ε) : Prop :=
  ∀ past event later, history = past ++ event :: later → Fits past event

theorem along_nil (Fits : List ε → ε → Prop) : Along Fits [] := by
  intro past event later hsplit
  simp at hsplit

variable {Fits : List ε → ε → Prop}

theorem along_append {history more : List ε} :
    Along Fits (history ++ more) ↔
      Along Fits history ∧ Along (fun past => Fits (history ++ past)) more := by
  constructor
  · intro halong
    constructor
    · rintro past event later rfl
      exact halong past event (later ++ more) (by simp)
    rintro past event later rfl
    exact halong (history ++ past) event later (by simp)
  rintro ⟨hhistory, hmore⟩ past event later hsplit
  rcases List.append_eq_append_iff.mp hsplit with ⟨between, rfl, rfl⟩ | ⟨between, rfl, hlater⟩
  · exact hmore between event later rfl
  cases between with
  | nil =>
    have hfirst := hmore [] event later hlater.symm
    simpa using hfirst
  | cons first rest =>
    cases hlater
    exact hhistory past event rest rfl

theorem along_singleton {event : ε} : Along Fits [event] ↔ Fits [] event := by
  constructor
  · exact fun halong => halong [] event [] rfl
  rintro hfits past other later hsplit
  cases past with
  | nil =>
    cases hsplit
    exact hfits
  | cons first rest => simp at hsplit

/-- One more event. -/
theorem along_concat {history : List ε} {event : ε} :
    Along Fits (history ++ [event]) ↔ Along Fits history ∧ Fits history event := by
  rw [along_append, along_singleton, List.append_nil]

end Hummin
