import Mathlib.Data.List.Basic

/-!
# Rounds inside attempts

An attempt goes through a bounded number of rounds.  A round goes on with a new work item, is
done, or raises; when the rounds are used up a last step ends the attempt.  An attempt that raises
is tried again until the error is given up on.  The state is never rolled back.
-/

namespace RagflowMineru.Library.Retrying

variable {η σ τ ε φ ρ : Type*}

/-- What a round that does not raise comes to. -/
inductive Turn (η ρ : Type*) where
  | again (h : η)
  | done (r : ρ)

/-- The rounds of one attempt, with the step that follows the last of them. -/
def rounds (round : η → σ → Except ε (Turn η ρ) × σ) (last : η → σ → Except ε ρ × σ) :
    ℕ → η → σ → Except ε ρ × σ
  | 0, h, s => last h s
  | n + 1, h, s =>
      match round h s with
      | (.ok (.again h'), s') => rounds round last n h' s'
      | (.ok (.done r), s') => (.ok r, s')
      | (.error e, s') => (.error e, s')

/-- The attempts with the given numbers; `none` when all of them raise and none is given up. -/
def attempts (attempt : σ → Except ε ρ × σ) (giveUp : ε → ℕ → Option φ) :
    List ℕ → σ → Option (Except φ ρ) × σ
  | [], s => (none, s)
  | k :: ks, s =>
      match attempt s with
      | (.ok r, s') => (some (.ok r), s')
      | (.error e, s') =>
          match giveUp e k with
          | some f => (some (.error f), s')
          | none => attempts attempt giveUp ks s'

section Rounds

variable {round : η → σ → Except ε (Turn η ρ) × σ} {last : η → σ → Except ε ρ × σ} {n : ℕ} {h : η}
  {s : σ}

/-- The rule for the rounds of an attempt: `I k` holds when `k` rounds are left. -/
theorem rounds_spec {I : ℕ → η → σ → Prop} {Q : σ → Prop}
    (hagain : ∀ {k h s h' s'}, I (k + 1) h s → round h s = (.ok (.again h'), s') → I k h' s')
    (hdone : ∀ {k h s}, I (k + 1) h s → (∀ h', (round h s).1 ≠ .ok (.again h')) →
      Q (round h s).2)
    (hlast : ∀ {h s}, I 0 h s → Q (last h s).2) (hs : I n h s) :
    Q (rounds round last n h s).2 := by
  induction n generalizing h s with
  | zero => exact hlast hs
  | succ n ih =>
    have hend := hdone hs
    rw [rounds]
    rcases hround : round h s with ⟨e | h' | r, s'⟩
    · simpa [hround] using hend
    · exact ih (hagain hs hround)
    · simpa [hround] using hend

variable {round' : η → τ → Except ε (Turn η ρ) × τ} {last' : η → τ → Except ε ρ × τ} {t : τ}

/-- Rounds that keep two states related, and come to the same, make attempts that do. -/
theorem rounds_simulation {R : σ → τ → Prop}
    (hround : ∀ {h s t}, R s t →
      (round h s).1 = (round' h t).1 ∧ R (round h s).2 (round' h t).2)
    (hlast : ∀ {h s t}, R s t → (last h s).1 = (last' h t).1 ∧ R (last h s).2 (last' h t).2)
    (hst : R s t) :
    (rounds round last n h s).1 = (rounds round' last' n h t).1 ∧
      R (rounds round last n h s).2 (rounds round' last' n h t).2 := by
  induction n generalizing h s t with
  | zero => exact hlast hst
  | succ n ih =>
    have hnext := hround (h := h) hst
    rw [rounds, rounds]
    rcases hs : round h s with ⟨e | h' | r, s'⟩ <;>
      rcases ht : round' h t with ⟨e' | k' | r', t'⟩ <;>
      rw [hs, ht] at hnext <;> obtain ⟨heq, hrel⟩ := hnext <;> cases heq
    · exact ⟨rfl, hrel⟩
    · exact ih hrel
    · exact ⟨rfl, hrel⟩

end Rounds

section Attempts

variable {attempt : σ → Except ε ρ × σ} {giveUp : ε → ℕ → Option φ} {k : ℕ} {ks : List ℕ}
  {s s' : σ} {e : ε} {r : ρ}

theorem attempts_of_ok (h : attempt s = (.ok r, s')) :
    attempts attempt giveUp (k :: ks) s = (some (.ok r), s') := by
  rw [attempts, h]

theorem attempts_of_giveUp {f : φ} (h : attempt s = (.error e, s')) (hf : giveUp e k = some f) :
    attempts attempt giveUp (k :: ks) s = (some (.error f), s') := by
  simp only [attempts, h, hf]

theorem attempts_of_retry (h : attempt s = (.error e, s')) (hf : giveUp e k = none) :
    attempts attempt giveUp (k :: ks) s = attempts attempt giveUp ks s' := by
  simp only [attempts, h, hf]

/-- The rule for attempts: `I k` holds when `k` attempts are left, and at the end for some
number. -/
theorem attempts_spec {I : ℕ → σ → Prop}
    (hattempt : ∀ {k s}, I (k + 1) s → I k (attempt s).2) (hs : I ks.length s) :
    ∃ k, I k (attempts attempt giveUp ks s).2 := by
  induction ks generalizing s with
  | nil => exact ⟨0, hs⟩
  | cons k ks ih =>
    have hnext := hattempt hs
    rcases hrun : attempt s with ⟨e | r, s'⟩ <;> rw [hrun] at hnext
    · cases hgive : giveUp e k with
      | some f =>
        rw [attempts_of_giveUp hrun hgive]
        exact ⟨_, hnext⟩
      | none =>
        rw [attempts_of_retry hrun hgive]
        exact ih hnext
    · rw [attempts_of_ok hrun]
      exact ⟨_, hnext⟩

/-- When the last attempt is always given up, the attempts come to an end. -/
theorem isSome_attempts (hgiveUp : ∀ e, (giveUp e k).isSome) :
    (attempts attempt giveUp (ks ++ [k]) s).1.isSome := by
  induction ks generalizing s with
  | nil =>
    rw [List.nil_append]
    rcases hrun : attempt s with ⟨e | r, s'⟩
    · obtain ⟨f, hf⟩ := Option.isSome_iff_exists.mp (hgiveUp e)
      rw [attempts_of_giveUp hrun hf]
      rfl
    · rw [attempts_of_ok hrun]
      rfl
  | cons j ks ih =>
    rw [List.cons_append]
    rcases hrun : attempt s with ⟨e | r, s'⟩
    · cases hgive : giveUp e j with
      | some f =>
        rw [attempts_of_giveUp hrun hgive]
        rfl
      | none =>
        rw [attempts_of_retry hrun hgive]
        exact ih
    · rw [attempts_of_ok hrun]
      rfl

variable {attempt' : τ → Except ε ρ × τ} {t : τ}

/-- Attempts that keep two states related, and come to the same, are tried again together. -/
theorem attempts_simulation {R : σ → τ → Prop}
    (hattempt : ∀ {s t}, R s t →
      (attempt s).1 = (attempt' t).1 ∧ R (attempt s).2 (attempt' t).2) (hst : R s t) :
    (attempts attempt giveUp ks s).1 = (attempts attempt' giveUp ks t).1 ∧
      R (attempts attempt giveUp ks s).2 (attempts attempt' giveUp ks t).2 := by
  induction ks generalizing s t with
  | nil => exact ⟨rfl, hst⟩
  | cons k ks ih =>
    have hnext := hattempt hst
    rcases hs : attempt s with ⟨e | r, s'⟩ <;> rcases ht : attempt' t with ⟨e' | r', t'⟩ <;>
      rw [hs, ht] at hnext <;> obtain ⟨heq, hrel⟩ := hnext <;> cases heq
    · cases hgive : giveUp e k with
      | some f =>
        rw [attempts_of_giveUp hs hgive, attempts_of_giveUp ht hgive]
        exact ⟨rfl, hrel⟩
      | none =>
        rw [attempts_of_retry hs hgive, attempts_of_retry ht hgive]
        exact ih hrel
    · rw [attempts_of_ok hs, attempts_of_ok ht]
      exact ⟨rfl, hrel⟩

end Attempts

end RagflowMineru.Library.Retrying
