import Mathlib.Logic.Basic

/-!
# Runs of a machine under a changing environment

The machine takes an input at every step: a request, the answer of a service,
the choice of the process that moves.  `step s i = none` means that the input is
not possible in `s`.  `Driven step P start s` says that some sequence of inputs
leads from `start` to `s`, each taken in a state where `P` holds of both.
-/

namespace RagflowMineru.Library

variable {σ ι : Type*}

/-- `s` is reached from `start` on inputs that satisfy `P` where they are
taken. -/
inductive Driven (step : σ → ι → Option σ) (P : σ → ι → Prop) (start : σ) :
    σ → Prop
  | refl : Driven step P start start
  | next {s t : σ} {i : ι} (hs : Driven step P start s) (hP : P s i)
      (hstep : step s i = some t) : Driven step P start t

namespace Driven

variable {step : σ → ι → Option σ} {P Q : σ → ι → Prop} {start s : σ}

/-- The invariant rule. -/
theorem invariant {I : σ → Prop} (hstart : I start)
    (hpres : ∀ s i t, I s → P s i → step s i = some t → I t)
    (hs : Driven step P start s) : I s := by
  induction hs with
  | refl => exact hstart
  | next _ hP hstep ih => exact hpres _ _ _ ih hP hstep

theorem mono (hPQ : ∀ s i, P s i → Q s i)
    (hs : Driven step P start s) : Driven step Q start s := by
  induction hs with
  | refl => exact .refl
  | next _ hP hstep ih => exact .next ih (hPQ _ _ hP) hstep

/-- The backward rule: when a property of the state after a step forces the
condition on the step and the property before it, a run that ends with the
property has met the condition throughout. -/
theorem of_final {I : σ → Prop} (hs : Driven step P start s)
    (hback : ∀ s i t, Driven step P start s → P s i → step s i = some t →
      I t → I s ∧ Q s i)
    (hI : I s) : Driven step Q start s := by
  induction hs with
  | refl => exact .refl
  | next hs hP hstep ih =>
      obtain ⟨hIs, hQ⟩ := hback _ _ _ hs hP hstep hI
      exact .next (ih hIs) hQ hstep

end Driven

/-- The run on a given list of inputs. -/
def drive (step : σ → ι → Option σ) : List ι → σ → Option σ
  | [], s => some s
  | i :: inputs, s => (step s i).bind (drive step inputs)

/-- The inputs of a list satisfy `P` where the run takes them. -/
def Meets (step : σ → ι → Option σ) (P : σ → ι → Prop) : List ι → σ → Prop
  | [], _ => True
  | i :: inputs, s => P s i ∧ ∀ t, step s i = some t → Meets step P inputs t

theorem Driven.of_drive {step : σ → ι → Option σ} {P : σ → ι → Prop}
    {start : σ} {inputs : List ι} {s t : σ} (hs : Driven step P start s)
    (hmeets : Meets step P inputs s) (hdrive : drive step inputs s = some t) :
    Driven step P start t := by
  induction inputs generalizing s with
  | nil =>
      obtain rfl := Option.some.inj hdrive
      exact hs
  | cons i inputs ih =>
      obtain ⟨u, hstep, hrest⟩ := Option.bind_eq_some_iff.mp hdrive
      exact ih (hs.next hmeets.1 hstep) (hmeets.2 u hstep) hrest

/-- Without conditions every run on a list of inputs counts. -/
theorem Driven.of_drive_eq {step : σ → ι → Option σ} {inputs : List ι}
    {start t : σ} (hdrive : drive step inputs start = some t) :
    Driven step (fun _ _ => True) start t := by
  refine Driven.refl.of_drive ?_ hdrive
  clear hdrive
  induction inputs generalizing start with
  | nil => trivial
  | cons i inputs ih => exact ⟨trivial, fun t _ => ih⟩

theorem Driven.exists_of_meets {step : σ → ι → Option σ} {P : σ → ι → Prop} {inputs : List ι}
    {start : σ} (hmeets : Meets step P inputs start)
    (hsome : (drive step inputs start).isSome = true) :
    ∃ s, drive step inputs start = some s ∧ Driven step P start s := by
  obtain ⟨s, hs⟩ := Option.isSome_iff_exists.mp hsome
  exact ⟨s, hs, Driven.refl.of_drive hmeets hs⟩

/-- What a list of inputs leads to is seen at the end of a run. -/
theorem Driven.exists_of_map_drive {step : σ → ι → Option σ} {inputs : List ι} {start : σ}
    {β : Type*} {f : σ → β} {v : β} (hdrive : (drive step inputs start).map f = some v) :
    ∃ s, Driven step (fun _ _ => True) start s ∧ f s = v := by
  obtain ⟨s, hs, hv⟩ := Option.map_eq_some_iff.mp hdrive
  exact ⟨s, Driven.of_drive_eq hs, hv⟩

instance decidableMeets (step : σ → ι → Option σ) (P : σ → ι → Prop)
    [∀ s i, Decidable (P s i)] :
    (inputs : List ι) → (s : σ) → Decidable (Meets step P inputs s)
  | [], _ => .isTrue trivial
  | i :: inputs, s =>
      have : ∀ t, Decidable (Meets step P inputs t) :=
        decidableMeets step P inputs
      match h : step s i with
      | none =>
          decidable_of_iff (P s i) (by simp [Meets, h])
      | some t =>
          decidable_of_iff (P s i ∧ Meets step P inputs t) (by simp [Meets, h])

end RagflowMineru.Library
