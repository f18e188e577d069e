import Mathlib.Data.List.Basic
import Mathlib.Order.Nat

/-!
# Bisection with an answer that need not be monotone

The middle of a range is asked; the search goes on above it when the answer is yes, and below it
when it is no.  The search stops behind the last place where the answer was yes.  Whatever the
answers are, this is the greatest place with yes at all middles that a search for this place
itself would pass below it.
-/

namespace RagflowMineru.Library

/-- The middle of the places from `left` to before `bound`. -/
def middle (left bound : ℕ) : ℕ := (left + (bound - 1)) / 2

theorem middle_spec {left bound : ℕ} (h : left < bound) :
    left ≤ middle left bound ∧ middle left bound < bound := by
  rw [middle]
  omega

/-- The middles up to `t` that a search for `t` passes. -/
def passedTo (t left bound : ℕ) : List ℕ :=
  if h : left < bound then
    if middle left bound ≤ t then middle left bound :: passedTo t (middle left bound + 1) bound
    else passedTo t left (middle left bound)
  else []
  termination_by bound - left
  decreasing_by
  · have hmiddle := middle_spec h
    omega
  · have hmiddle := middle_spec h
    omega

variable (good : ℕ → Prop) [DecidablePred good]

/-- Where the search ends: everything from there on is behind the last yes. -/
def stop (left bound : ℕ) : ℕ :=
  if h : left < bound then
    if good (middle left bound) then stop (middle left bound + 1) bound
    else stop left (middle left bound)
  else left
  termination_by bound - left
  decreasing_by
  · have hmiddle := middle_spec h
    omega
  · have hmiddle := middle_spec h
    omega

variable {good} {left bound t : ℕ}

theorem stop_bounds (h : left ≤ bound) :
    left ≤ stop good left bound ∧ stop good left bound ≤ bound := by
  induction left, bound using stop.induct good with
  | case1 left bound hlt hgood ih =>
    have hmiddle := middle_spec hlt
    rw [stop, dif_pos hlt, if_pos hgood]
    obtain ⟨hleft, hbound⟩ := ih hmiddle.2
    exact ⟨by omega, hbound⟩
  | case2 left bound hlt hgood ih =>
    have hmiddle := middle_spec hlt
    rw [stop, dif_pos hlt, if_neg hgood]
    obtain ⟨hleft, hbound⟩ := ih hmiddle.1
    exact ⟨hleft, hbound.trans hmiddle.2.le⟩
  | case3 left bound hlt =>
    rw [stop, dif_neg hlt]
    exact ⟨le_rfl, h⟩

/-- The answer was no at the end, unless the whole range was passed. -/
theorem stop_eq_or (h : left ≤ bound) :
    stop good left bound = bound ∨ ¬ good (stop good left bound) := by
  induction left, bound using stop.induct good with
  | case1 left bound hlt hgood ih =>
    rw [stop, dif_pos hlt, if_pos hgood]
    exact ih (middle_spec hlt).2
  | case2 left bound hlt hgood ih =>
    rw [stop, dif_pos hlt, if_neg hgood]
    rcases ih (middle_spec hlt).1 with heq | hno
    · rw [heq]
      exact .inr hgood
    · exact .inr hno
  | case3 left bound hlt =>
    rw [stop, dif_neg hlt]
    exact .inl (by omega)

/-- The answer was yes before the end, unless nothing was passed. -/
theorem stop_eq_left_or (h : left ≤ bound) :
    stop good left bound = left ∨
      ∃ t, stop good left bound = t + 1 ∧ left ≤ t ∧ good t := by
  induction left, bound using stop.induct good with
  | case1 left bound hlt hgood ih =>
    have hmiddle := middle_spec hlt
    rw [stop, dif_pos hlt, if_pos hgood]
    rcases ih hmiddle.2 with heq | ⟨t, heq, hle, hyes⟩
    · exact .inr ⟨_, heq, hmiddle.1, hgood⟩
    · exact .inr ⟨t, heq, by omega, hyes⟩
  | case2 left bound hlt hgood ih =>
    rw [stop, dif_pos hlt, if_neg hgood]
    exact ih (middle_spec hlt).1
  | case3 left bound hlt =>
    rw [stop, dif_neg hlt]
    exact .inl rfl

/-- A search for the place before the end passes the same middles. -/
theorem good_of_mem_passedTo (h : left ≤ bound) (hstop : stop good left bound = t + 1) :
    ∀ m ∈ passedTo t left bound, good m := by
  induction left, bound using stop.induct good with
  | case1 left bound hlt hgood ih =>
    have hmiddle := middle_spec hlt
    rw [stop, dif_pos hlt, if_pos hgood] at hstop
    have hbelow := (@stop_bounds good _ (middle left bound + 1) bound hmiddle.2).1
    rw [hstop] at hbelow
    rw [passedTo, dif_pos hlt, if_pos (Nat.le_of_succ_le_succ hbelow), List.forall_mem_cons]
    exact ⟨hgood, ih hmiddle.2 hstop⟩
  | case2 left bound hlt hgood ih =>
    have hmiddle := middle_spec hlt
    rw [stop, dif_pos hlt, if_neg hgood] at hstop
    have habove := (@stop_bounds good _ left (middle left bound) hmiddle.1).2
    rw [hstop] at habove
    rw [passedTo, dif_pos hlt, if_neg (not_le.mpr habove)]
    exact ih hmiddle.1 hstop
  | case3 left bound hlt =>
    rw [passedTo, dif_neg hlt]
    exact List.forall_mem_nil _

/-- No place behind the end has yes at all the middles that a search for it passes. -/
theorem lt_stop_of_good (h : left ≤ bound) (ht : t < bound)
    (hgood : ∀ m ∈ passedTo t left bound, good m) : left ≤ t → t < stop good left bound := by
  induction left, bound using stop.induct good with
  | case1 left bound hlt hyes ih =>
    intro hleft
    have hmiddle := middle_spec hlt
    rw [stop, dif_pos hlt, if_pos hyes]
    have hbelow := (@stop_bounds good _ (middle left bound + 1) bound hmiddle.2).1
    by_cases hle : middle left bound ≤ t
    · rw [passedTo, dif_pos hlt, if_pos hle, List.forall_mem_cons] at hgood
      rcases Nat.eq_or_lt_of_le hle with rfl | habove
      · exact hbelow
      · exact ih hmiddle.2 ht hgood.2 habove
    · exact (not_le.mp hle).trans hbelow
  | case2 left bound hlt hno ih =>
    intro hleft
    have hmiddle := middle_spec hlt
    rw [stop, dif_pos hlt, if_neg hno]
    by_cases hle : middle left bound ≤ t
    · rw [passedTo, dif_pos hlt, if_pos hle, List.forall_mem_cons] at hgood
      exact absurd hgood.1 hno
    · rw [passedTo, dif_pos hlt, if_neg hle] at hgood
      exact ih hmiddle.1 (not_le.mp hle) hgood hleft
  | case3 left bound hlt =>
    intro hleft
    exact absurd (hleft.trans_lt ht) hlt

end RagflowMineru.Library
