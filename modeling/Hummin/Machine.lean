/-
State machines that step on inputs, and the rule that carries an invariant from
the start of a run to its end.
-/
import Mathlib.Data.List.Basic

namespace Hummin

open List

universe u v

variable {σ : Type u} {ι : Type v}

/-- A run over a list of inputs; `none` when a step refuses its input. -/
def run (step : σ → ι → Option σ) (start : σ) : List ι → Option σ
  | [] => some start
  | input :: rest => (step start input).bind fun next => run step next rest

/-- A guarded step is taken where its guard holds. -/
theorem of_guard {p : Prop} [Decidable p] {state next : σ}
    (hstep : (if p then some state else none) = some next) : p ∧ state = next := by
  simpa using hstep

theorem of_not_guard {p : Prop} [Decidable p] {state next : σ}
    (hstep : (if p then none else some state) = some next) : ¬ p ∧ state = next := by
  simpa using hstep

variable {step : σ → ι → Option σ}

variable {start result : σ}

theorem run_cons_eq_some {input : ι} {rest : List ι}
    (hrun : run step start (input :: rest) = some result) :
    ∃ next, step start input = some next ∧ run step next rest = some result :=
  Option.bind_eq_some_iff.mp hrun

variable {inputs : List ι}

/-- What holds at the start and is kept by every step holds after every run. -/
theorem run_invariant {Holds : σ → Prop}
    (hstep : ∀ state input next, Holds state → step state input = some next → Holds next)
    (hstart : Holds start) (hrun : run step start inputs = some result) : Holds result := by
  induction inputs generalizing start with
  | nil =>
    cases hrun
    exact hstart
  | cons input rest ih =>
    obtain ⟨next, hnext, hrest⟩ := run_cons_eq_some hrun
    exact ih (hstep start input next hstart hnext) hrest

/-- Every step of a run is taken from a state that allows it. -/
def EveryStep (step : σ → ι → Option σ) (allowed : σ → ι → Prop) (start : σ) :
    List ι → Prop
  | [] => True
  | input :: rest => allowed start input ∧
      ∀ next, step start input = some next → EveryStep step allowed next rest

instance decidableEveryStep {step : σ → ι → Option σ} {allowed : σ → ι → Prop}
    [∀ state input, Decidable (allowed state input)] (start : σ) :
    ∀ inputs : List ι, Decidable (EveryStep step allowed start inputs)
  | [] => .isTrue trivial
  | input :: rest => match hstep : step start input with
    | none => decidable_of_iff (allowed start input) (by simp [EveryStep, hstep])
    | some next =>
      have : Decidable (EveryStep step allowed next rest) := decidableEveryStep next rest
      decidable_of_iff (allowed start input ∧ EveryStep step allowed next rest)
        (by simp [EveryStep, hstep])

variable {allowed : σ → ι → Prop}

theorem everyStep_of_forall
    (hallowed : ∀ state, ∀ input ∈ inputs, allowed state input) (start : σ) :
    EveryStep step allowed start inputs := by
  induction inputs generalizing start with
  | nil => trivial
  | cons input rest ih =>
    refine ⟨hallowed start input mem_cons_self, fun next _ => ih ?_ next⟩
    exact fun state other hother => hallowed state other (mem_cons_of_mem input hother)

theorem everyStep_append {more : List ι} (hinputs : EveryStep step allowed start inputs)
    (hmore : ∀ middle, run step start inputs = some middle → EveryStep step allowed middle more) :
    EveryStep step allowed start (inputs ++ more) := by
  induction inputs generalizing start with
  | nil => exact hmore start rfl
  | cons input rest ih =>
    refine ⟨hinputs.1, fun next hnext => ih (hinputs.2 next hnext) ?_⟩
    intro middle hmiddle
    apply hmore middle
    rw [run, hnext]
    exact hmiddle

variable {Invariant : σ → Prop}

/-- What allowed steps keep holds in every state of a run whose steps are all allowed. -/
theorem everyStep_invariant {allowed : σ → ι → Prop}
    (hkept : ∀ state input next, Invariant state → allowed state input →
      step state input = some next → Invariant next)
    {state : σ} (hstart : Invariant start) {front : List ι}
    (hsteps : EveryStep step allowed start inputs) (hfront : front <+: inputs)
    (hrun : run step start front = some state) : Invariant state := by
  induction inputs generalizing start front with
  | nil =>
    rw [prefix_nil.mp hfront] at hrun
    cases hrun
    exact hstart
  | cons input rest ih =>
    cases front with
    | nil =>
      cases hrun
      exact hstart
    | cons first more =>
      obtain ⟨rfl, hmore⟩ := cons_prefix_cons.mp hfront
      obtain ⟨next, hnext, hreached⟩ := run_cons_eq_some hrun
      exact ih (hkept start first next hstart hsteps.1 hnext) (hsteps.2 next hnext)
        hmore hreached

/-- When an allowed step keeps the invariant and any other step leaves a bad state, the
states of a run are good just when all its steps were allowed. -/
theorem forall_states_iff_everyStep {Good : σ → Prop}
    {allowed : σ → ι → Prop} (hgood : ∀ state, Invariant state → Good state)
    (hkept : ∀ state input next, Invariant state → allowed state input →
      step state input = some next → Invariant next)
    (hbroken : ∀ state input next, ¬ allowed state input → step state input = some next →
      ¬ Good next) (hstart : Invariant start) (hrun : run step start inputs = some result) :
    (∀ front state, front <+: inputs → run step start front = some state → Good state) ↔
      EveryStep step allowed start inputs := by
  induction inputs generalizing start with
  | nil =>
    refine ⟨fun _ => trivial, ?_⟩
    rintro - front state hfront hstate
    rw [prefix_nil.mp hfront] at hstate
    cases hstate
    exact hgood start hstart
  | cons input rest ih =>
    obtain ⟨next, hnext, hrest⟩ := run_cons_eq_some hrun
    constructor
    · intro hstates
      have hallowed : allowed start input := by
        by_contra hrefused
        apply hbroken start input next hrefused hnext
        apply hstates [input] next (prefix_append [input] rest)
        rw [run, hnext]
        rfl
      refine ⟨hallowed, ?_⟩
      intro other hother
      cases hnext.symm.trans hother
      apply (ih (hkept start input next hstart hallowed hnext) hrest).mp
      intro front state hfront hstate
      apply hstates (input :: front) state (prefix_cons_inj input |>.mpr hfront)
      rw [run, hnext]
      exact hstate
    · intro hsteps front state hfront hstate
      exact hgood state (everyStep_invariant hkept hstart hsteps hfront hstate)

end Hummin
