import Mathlib.Data.List.Basic

/-!
# Runs of a partial transition function

`step s = none` means that the system has stopped in `s`.  `Reach step P start s`
says that `s` is reached from `start` by steps each of which is taken in a state
satisfying `P`; with `P` true everywhere this is plain reachability.
-/

namespace RagflowMineru.Library

variable {σ : Type*}

/-- `s` is reached from `start` by steps taken in states satisfying `P`. -/
inductive Reach (step : σ → Option σ) (P : σ → Prop) (start : σ) : σ → Prop
  | refl : Reach step P start start
  | next {s t : σ} (hs : Reach step P start s) (hP : P s)
      (hstep : step s = some t) : Reach step P start t

/-- Plain reachability. -/
abbrev Reachable (step : σ → Option σ) (start : σ) : σ → Prop :=
  Reach step (fun _ => True) start

namespace Reach

variable {step : σ → Option σ} {P Q : σ → Prop} {start : σ}

/-- The invariant rule: what holds at the start and is preserved by the steps
taken holds wherever the run gets. -/
theorem invariant {I : σ → Prop} (hstart : I start)
    (hpres : ∀ s t, I s → P s → step s = some t → I t)
    {s : σ} (hs : Reach step P start s) : I s := by
  induction hs with
  | refl => exact hstart
  | next _ hP hstep ih => exact hpres _ _ ih hP hstep

theorem mono (hPQ : ∀ s, P s → Q s) {s : σ} (hs : Reach step P start s) :
    Reach step Q start s := by
  induction hs with
  | refl => exact .refl
  | next _ hP hstep ih => exact .next ih (hPQ _ hP) hstep

theorem reachable {s : σ} (hs : Reach step P start s) :
    Reachable step start s :=
  hs.mono fun _ _ => trivial

/-- The backward rule: when a property of the state after a step forces the
condition on the step and the property before it, every run that ends with the
property has met the condition throughout. -/
theorem of_final {I : σ → Prop}
    (hback : ∀ s t, Reachable step start s → step s = some t → I t → I s ∧ P s)
    {s : σ} (hs : Reachable step start s) (hI : I s) :
    Reach step P start s := by
  induction hs with
  | refl => exact .refl
  | next hs _ hstep ih =>
      obtain ⟨hIs, hPs⟩ := hback _ _ hs hstep hI
      exact .next (ih hIs) hPs hstep

end Reach

/-- Exactly `n` steps. -/
def iterate (step : σ → Option σ) : ℕ → σ → Option σ
  | 0, s => some s
  | n + 1, s => (step s).bind (iterate step n)

theorem iterate_succ (step : σ → Option σ) (n : ℕ) (s : σ) :
    iterate step (n + 1) s = (iterate step n s).bind step := by
  induction n generalizing s with
  | zero =>
      cases h : step s with
      | none => simp [iterate, h]
      | some t => simp [iterate, h]
  | succ n ih =>
      rw [iterate]
      cases h : step s with
      | none => simp [iterate, h]
      | some t =>
          rw [Option.bind_some, ih t, iterate, h, Option.bind_some]

/-- The state after `n` steps of a run that makes so many. -/
theorem reach_iterate {step : σ → Option σ} {P : σ → Prop} {n : ℕ} {start : σ}
    (hsome : (iterate step n start).isSome = true)
    (hP : ∀ k < n, P ((iterate step k start).getD start)) :
    Reach step P start ((iterate step n start).getD start) := by
  induction n with
  | zero => exact .refl
  | succ n ih =>
      rw [iterate_succ] at hsome ⊢
      cases h : iterate step n start with
      | none => simp [h] at hsome
      | some s =>
          rw [h, Option.bind_some] at hsome
          obtain ⟨t, ht⟩ := Option.isSome_iff_exists.mp hsome
          rw [h] at ih
          have hs : Reach step P start s := by
            apply ih rfl
            intro k hk
            exact hP k (Nat.lt_succ_of_lt hk)
          have hPs : P s := by
            have hlast := hP n (Nat.lt_succ_self n)
            rwa [h] at hlast
          rw [Option.bind_some, ht]
          exact hs.next hPs ht

theorem reachable_iterate {step : σ → Option σ} {n : ℕ} {start : σ}
    (hsome : (iterate step n start).isSome = true) :
    Reachable step start ((iterate step n start).getD start) :=
  reach_iterate hsome fun _ _ => trivial

end RagflowMineru.Library
