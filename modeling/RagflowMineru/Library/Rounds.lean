import Mathlib.Order.Nat

/-!
# Rounds until nothing changes

A round changes the state or finds that nothing is left to do.  When every round
lowers a number, the rounds come to an end, in a state in which what every round
keeps still holds and no further round is possible.
-/

namespace RagflowMineru.Library

variable {σ : Type*} (round : σ → Option σ)

/-- The rounds, for as many as there is fuel; `none` when it is used up before the end. -/
def rounds : ℕ → σ → Option σ
  | 0, _ => none
  | fuel + 1, s =>
      match round s with
      | none => some s
      | some s' => rounds fuel s'

theorem rounds_succ (fuel : ℕ) (s : σ) :
    rounds round (fuel + 1) s =
      match round s with
      | none => some s
      | some s' => rounds round fuel s' :=
  rfl

variable {round} {Inv : σ → Prop} {measure : σ → ℕ}

/-- The rule for rounds: an invariant and a measure give the end of all rounds. -/
theorem rounds_spec
    (hround : ∀ {s s'}, Inv s → round s = some s' → Inv s' ∧ measure s' < measure s) {s : σ}
    (h : Inv s) :
    ∃ s', (∀ fuel > measure s, rounds round fuel s = some s') ∧ Inv s' ∧ round s' = none := by
  induction hn : measure s using Nat.strong_induction_on generalizing s with
  | _ n ih =>
    subst hn
    cases hs : round s with
    | none =>
      refine ⟨s, fun fuel hfuel => ?_, h, hs⟩
      obtain ⟨fuel, rfl⟩ := Nat.exists_eq_add_one_of_ne_zero (Nat.ne_zero_of_lt hfuel)
      rw [rounds_succ, hs]
    | some s₁ =>
      obtain ⟨h₁, hlt⟩ := hround h hs
      obtain ⟨s', hrun, hinv, hend⟩ := ih (measure s₁) hlt h₁ rfl
      refine ⟨s', fun fuel hfuel => ?_, hinv, hend⟩
      obtain ⟨fuel, rfl⟩ := Nat.exists_eq_add_one_of_ne_zero (Nat.ne_zero_of_lt hfuel)
      rw [rounds_succ, hs]
      exact hrun fuel (by omega)

end RagflowMineru.Library
