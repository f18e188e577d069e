import RagflowMineru.Library.Driven
import Mathlib.Data.Nat.Nth

/-!
# Processes over a shared state

Every process has a state of its own beside the one that all see.  An action
takes the process that moves, the shared state, the process's own state and what
the environment answers, and gives the two states after one indivisible step;
`none` means that the process cannot move so.  Interleavings are the runs of
`Processes.step`.  For the end of things there are schedules: every turn goes to
one process, which may have nothing left to do.
-/

namespace RagflowMineru.Library

/-- The shared state and each process's own. -/
@[ext]
structure Processes (ι γ ρ : Type*) where
  shared : γ
  own : ι → ρ

namespace Processes

variable {ι γ ρ α : Type*} [DecidableEq ι]

def step (act : ι → γ → ρ → α → Option (γ × ρ)) (s : Processes ι γ ρ) (move : ι × α) :
    Option (Processes ι γ ρ) :=
  (act move.1 s.shared (s.own move.1) move.2).map fun r =>
    ⟨r.1, Function.update s.own move.1 r.2⟩

variable {act : ι → γ → ρ → α → Option (γ × ρ)} {s t : Processes ι γ ρ} {i : ι} {a : α}

theorem step_eq_some_iff :
    step act s (i, a) = some t ↔
      act i s.shared (s.own i) a = some (t.shared, t.own i) ∧ ∀ j, j ≠ i → t.own j = s.own j := by
  constructor
  · intro hstep
    obtain ⟨r, hact, rfl⟩ := Option.map_eq_some_iff.mp hstep
    refine ⟨?_, fun j hj => Function.update_of_ne hj _ _⟩
    change act i s.shared (s.own i) a = some (r.1, Function.update s.own i r.2 i)
    rw [Function.update_self]
    exact hact
  · rintro ⟨hact, hothers⟩
    rw [step, hact, Option.map_some, Option.some_inj]
    ext1
    · rfl
    · funext j
      by_cases hj : j = i
      · subst hj
        exact Function.update_self _ _ _
      · rw [hothers j hj]
        exact Function.update_of_ne hj _ _

theorem exists_step_of_act {g : γ} {l : ρ} (hact : act i s.shared (s.own i) a = some (g, l)) :
    ∃ t, step act s (i, a) = some t ∧ t.shared = g ∧ t.own i = l ∧
      ∀ j, j ≠ i → t.own j = s.own j :=
  ⟨⟨g, Function.update s.own i l⟩, by simp [step, hact], rfl, Function.update_self _ _ _,
    fun _ hj => Function.update_of_ne hj _ _⟩

/-- Each process has an assertion about the shared state and its own.  It is
enough that a move keeps the assertion of the process that moves and does not
interfere with the others'. -/
theorem invariant {P : Processes ι γ ρ → ι × α → Prop} {start : Processes ι γ ρ}
    {J : γ → Prop} {L : ι → γ → ρ → Prop}
    (hstart : J start.shared ∧ ∀ i, L i start.shared (start.own i))
    (hmove : ∀ s i a g l, J s.shared → (∀ j, L j s.shared (s.own j)) → P s (i, a) →
      act i s.shared (s.own i) a = some (g, l) →
        J g ∧ L i g l ∧ ∀ j, j ≠ i → L j g (s.own j))
    (hs : Driven (step act) P start s) : J s.shared ∧ ∀ i, L i s.shared (s.own i) := by
  refine hs.invariant (I := fun s => J s.shared ∧ ∀ i, L i s.shared (s.own i)) hstart ?_
  rintro s ⟨i, a⟩ t ⟨hJ, hL⟩ hP hstep
  obtain ⟨hact, hothers⟩ := step_eq_some_iff.mp hstep
  obtain ⟨hJ', hLi, hLj⟩ := hmove s i a _ _ hJ hL hP hact
  refine ⟨hJ', fun j => ?_⟩
  by_cases hj : j = i
  · subst hj
    exact hLi
  · rw [hothers j hj]
    exact hLj j hj

/-! ## Schedules -/

/-- The state after `n` turns of a schedule; a turn in which the process cannot
move changes nothing. -/
def play (act : ι → γ → ρ → α → Option (γ × ρ)) (schedule : ℕ → ι × α)
    (start : Processes ι γ ρ) : ℕ → Processes ι γ ρ
  | 0 => start
  | n + 1 =>
      let s := play act schedule start n
      (step act s (schedule n)).getD s

variable {schedule : ℕ → ι × α} {start : Processes ι γ ρ}

theorem driven_play (n : ℕ) :
    Driven (step act) (fun _ _ => True) start (play act schedule start n) := by
  induction n with
  | zero => exact .refl
  | succ n ih =>
      rw [play]
      cases hstep : step act (play act schedule start n) (schedule n) with
      | none => exact ih
      | some t => exact ih.next trivial hstep

/-- The number of turns that a process has had. -/
def turns (schedule : ℕ → ι × α) (i : ι) (n : ℕ) : ℕ := Nat.count (fun m => (schedule m).1 = i) n

/-- A process that is given turns for ever is given any number of them. -/
theorem exists_turns (hfair : ∀ n, ∃ m, n ≤ m ∧ (schedule m).1 = i) (k : ℕ) :
    ∃ n, turns schedule i n = k := by
  refine ⟨Nat.nth (fun m => (schedule m).1 = i) k, Nat.count_nth_of_infinite ?_ k⟩
  refine Set.infinite_of_not_bddAbove ?_
  rintro ⟨b, hb⟩
  obtain ⟨m, hm, hturn⟩ := hfair (b + 1)
  exact absurd (hb hturn) (by omega)

/-- As long as its rank is not zero a process can move, and each move of its own
lowers the rank: so do its turns, whatever the others do. -/
theorem rank_play_le {rank : ρ → ℕ} {I : Processes ι γ ρ → Prop} (hstart : I start)
    (hpres : ∀ s move t, I s → step act s move = some t → I t)
    (hdown : ∀ (s : Processes ι γ ρ) a, I s → rank (s.own i) ≠ 0 →
      ∃ g l, act i s.shared (s.own i) a = some (g, l) ∧ rank l < rank (s.own i))
    (hdone : ∀ g l a, rank l = 0 → act i g l a = none) (n : ℕ) :
    rank ((play act schedule start n).own i) ≤ rank (start.own i) - turns schedule i n := by
  induction n with
  | zero => exact Nat.le_refl _
  | succ n ih =>
      have hI : I (play act schedule start n) :=
        (driven_play n).invariant hstart fun s move t hIs _ hstep => hpres s move t hIs hstep
      have hcount : turns schedule i (n + 1) =
          turns schedule i n + if (schedule n).1 = i then 1 else 0 :=
        Nat.count_succ _ n
      rw [play, hcount]
      generalize play act schedule start n = s at ih hI ⊢
      obtain ⟨j, a⟩ := schedule n
      by_cases hj : j = i
      · subst hj
        rw [if_pos rfl]
        by_cases hrank : rank (s.own j) = 0
        · have hstep : step act s (j, a) = none := by
            rw [step, hdone _ _ _ hrank, Option.map_none]
          rw [hstep, Option.getD_none, hrank]
          exact Nat.zero_le _
        · obtain ⟨g, l, hact, hlt⟩ := hdown s a hI hrank
          obtain ⟨t, hstep, -, hown, -⟩ := exists_step_of_act hact
          rw [hstep, Option.getD_some, hown]
          omega
      · rw [if_neg hj, Nat.add_zero]
        cases hstep : step act s (j, a) with
        | none => exact ih
        | some t =>
            rw [Option.getD_some, (step_eq_some_iff.mp hstep).2 i (Ne.symm hj)]
            exact ih

end Processes

end RagflowMineru.Library
