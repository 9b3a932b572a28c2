import Mathlib.Data.Option.Basic

/-!
# Runs of a machine

A machine answers each call and goes on in another state, or has no value. `run` is a run over a
list of calls with the list of answers. `run_refines` is the rule for a machine that refines
another: an invariant and an abstraction function that commute with a step commute with a run.
-/

namespace Wire

variable {σ τ ι ω : Type}

/-- The answers to a list of calls, and the state after them. -/
def run (step : σ → ι → Option (ω × σ)) : σ → List ι → Option (List ω × σ)
  | s, [] => some ([], s)
  | s, i :: is =>
      (step s i).bind fun x => (run step x.2 is).map fun y => (x.1 :: y.1, y.2)

/-- What holds of a state and is kept by every step holds after a run. -/
theorem run_invariant {step : σ → ι → Option (ω × σ)} {P : σ → Prop}
    (hstep : ∀ s i x, P s → step s i = some x → P x.2) {s : σ} (hs : P s) {is : List ι}
    {y : List ω × σ} (h : run step s is = some y) : P y.2 := by
  induction is generalizing s y with
  | nil =>
      obtain rfl := Option.some.inj h
      exact hs
  | cons i is ih =>
      obtain ⟨x, hx, hy⟩ := Option.bind_eq_some_iff.mp h
      obtain ⟨z, hz, rfl⟩ := Option.map_eq_some_iff.mp hy
      exact ih (y := z) (hstep s i x hs hx) hz

/-- A machine whose steps are those of another machine on abstract states gives the same answers
in every run, or none in either. -/
theorem run_refines {step : σ → ι → Option (ω × σ)} {step' : τ → ι → Option (ω × τ)} {P : σ → Prop}
    {abs : σ → τ} (hkeep : ∀ s i x, P s → step s i = some x → P x.2)
    (hstep : ∀ s i, P s → (step s i).map (Prod.map id abs) = step' (abs s) i) {s : σ} (hs : P s)
    (is : List ι) : (run step s is).map (Prod.map id abs) = run step' (abs s) is := by
  induction is generalizing s with
  | nil => rfl
  | cons i is ih =>
      rw [run, run, ← hstep s i hs]
      cases hx : step s i with
      | none => rfl
      | some x =>
          rw [Option.bind_some, Option.map_some, Option.bind_some, Prod.map_snd,
            ← ih (hkeep s i x hs hx), Option.map_map, Option.map_map]
          rfl

end Wire
