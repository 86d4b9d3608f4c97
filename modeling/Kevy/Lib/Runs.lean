import Mathlib.Logic.Basic

/-!
# Runs of a system

A system takes one event after another, or stops at an event it has no answer to. Runs are restricted to the events
that are allowed where they happen. An invariant is proved once for a step and then holds wherever a run leads.
-/

namespace Kevy.Lib

variable {S E : Type} {step : S → E → Option S} {allowed : S → E → Prop}

/-- The states that allowed events lead to from `s₀`. -/
inductive Reached (step : S → E → Option S) (allowed : S → E → Prop) (s₀ : S) : S → Prop
  | start : Reached step allowed s₀ s₀
  | step {s s' : S} {e : E} (h : Reached step allowed s₀ s) (he : allowed s e) (hs : step s e = some s') :
      Reached step allowed s₀ s'

theorem Reached.invariant {s0 s : S} {P : S → Prop} (h : Reached step allowed s0 s) (hstart : P s0)
    (hstep : ∀ s e s', P s → allowed s e → step s e = some s' → P s') : P s := by
  induction h with
  | start => exact hstart
  | step _ he hs ih => exact hstep _ _ _ ih he hs

def Allows (step : S → E → Option S) (allowed : S → E → Prop) : S → List E → Prop
  | _, [] => True
  | s, e :: es => allowed s e ∧ ((step s e).elim True fun s' => Allows step allowed s' es)

theorem Reached.run {s0 s s' : S} (h0 : Reached step allowed s0 s) (es : List E) (hes : Allows step allowed s es)
    (hs' : es.foldlM step s = some s') : Reached step allowed s0 s' := by
  induction es generalizing s with
  | nil =>
    cases hs'
    exact h0
  | cons e es ih =>
    obtain ⟨he, hrest⟩ := hes
    rw [List.foldlM_cons] at hs'
    obtain ⟨s1, hs1, hs'⟩ := Option.bind_eq_some_iff.mp hs'
    rw [hs1] at hrest
    exact ih (h0.step he hs1) hrest hs'

end Kevy.Lib
