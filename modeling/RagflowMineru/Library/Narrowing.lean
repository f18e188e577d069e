import Mathlib.Data.List.Basic
import Mathlib.Data.List.Induction
import Mathlib.Data.List.TakeWhile
import Mathlib.Order.Nat
import Mathlib.Order.Lattice

/-!
# A bisection that stops at a hit

The middle of a range is asked.  It is too high, too low or a hit, and the range is narrowed to the
places below it, to those above it, or not any more.  A place in the range stays there as long as
the middles on the way to it send the search its way; behind a hit none is asked.
-/

namespace RagflowMineru.Library.Narrowing

variable (high low : ℕ → Bool)

/-- The range that is left, and the last middle. -/
def narrow (s e ii : ℕ) : ℕ × ℕ × ℕ :=
  if s < e then
    if high ((e + s) / 2) then narrow s ((e + s) / 2) ((e + s) / 2)
    else if low ((e + s) / 2) then narrow ((e + s) / 2 + 1) e ((e + s) / 2)
    else (s, e, (e + s) / 2)
  else (s, e, ii)
  termination_by e - s

/-- The middles that a search for the place `t` asks, up to `t` itself. -/
def passed (t s e : ℕ) : List ℕ :=
  if s < e then
    if (e + s) / 2 = t then [t]
    else if t < (e + s) / 2 then (e + s) / 2 :: passed t s ((e + s) / 2)
    else (e + s) / 2 :: passed t ((e + s) / 2 + 1) e
  else []
  termination_by e - s

/-- Before the first hit, no middle above the place `t` is too low. -/
def Kept (t s e : ℕ) : Prop :=
  ∀ m ∈ (passed t s e).takeWhile fun m => high m || low m, t < m → high m = true

variable {high low} {s e ii t : ℕ}

theorem narrow_bounds (h : s ≤ e) :
    s ≤ (narrow high low s e ii).1 ∧ (narrow high low s e ii).2.1 ≤ e := by
  fun_induction narrow high low s e ii with
  | case1 s e ii hlt hhigh ih =>
      obtain ⟨hs, he⟩ := ih (by omega)
      exact ⟨hs, by omega⟩
  | case2 s e ii hlt hhigh hlow ih =>
      obtain ⟨hs, he⟩ := ih (by omega)
      exact ⟨by omega, he⟩
  | case3 => exact ⟨le_rfl, le_rfl⟩
  | case4 => exact ⟨le_rfl, le_rfl⟩

/-- A hit below which nothing is too high stays in the range exactly when it is kept on the way. -/
theorem mem_narrow_iff (hhigh : ∀ m ≤ t, high m = false) (hlow : low t = false) (hs : s ≤ t)
    (he : t < e) :
    (narrow high low s e ii).1 ≤ t ∧ t < (narrow high low s e ii).2.1 ↔ Kept high low t s e := by
  rw [Kept]
  fun_induction narrow high low s e ii with
  | case1 s e ii hlt hmid ih =>
      have habove : t < (e + s) / 2 := by
        by_contra hle
        rw [hhigh _ (not_lt.mp hle)] at hmid
        exact nomatch hmid
      have hpassed : passed t s e = (e + s) / 2 :: passed t s ((e + s) / 2) := by
        rw [passed, if_pos hlt, if_neg habove.ne', if_pos habove]
      rw [ih hs habove, hpassed, List.takeWhile_cons_of_pos (by rw [hmid]; rfl),
        List.forall_mem_cons, and_iff_right fun _ => hmid]
  | case2 s e ii hlt hmid hmid' ih =>
      have hne : (e + s) / 2 ≠ t := by
        rintro rfl
        rw [hlow] at hmid'
        exact nomatch hmid'
      rw [passed, if_pos hlt, if_neg hne]
      by_cases habove : t < (e + s) / 2
      · have hout := (@narrow_bounds high low ((e + s) / 2 + 1) e ((e + s) / 2) (by omega)).1
        rw [if_pos habove, List.takeWhile_cons_of_pos (by rw [hmid', Bool.or_true]),
          List.forall_mem_cons]
        exact iff_of_false (fun h => by omega) fun h => hmid (h.1 habove)
      · rw [if_neg habove, ih (by omega) he,
          List.takeWhile_cons_of_pos (by rw [hmid', Bool.or_true]), List.forall_mem_cons,
          and_iff_right fun h => absurd h habove]
  | case3 s e ii hlt hmid hmid' =>
      obtain ⟨rest, hpassed⟩ : ∃ rest, passed t s e = (e + s) / 2 :: rest := by
        rw [passed, if_pos hlt]
        split_ifs with heq
        · exact ⟨[], by rw [heq]⟩
        all_goals exact ⟨_, rfl⟩
      refine iff_of_true ⟨hs, he⟩ ?_
      rw [hpassed, List.takeWhile_cons_of_neg (by simp [hmid, hmid'])]
      exact fun m hm => absurd hm List.not_mem_nil
  | case4 s e ii hge => exact absurd (hs.trans_lt he) hge

/-! ## The first of the greatest -/

section Best

variable {R : Type*} [LinearOrder R] [Zero R]

/-- The first place with the greatest value, if this is positive. -/
def firstBest (value : ℕ → R) (places : List ℕ) : Option ℕ × R :=
  places.foldl (fun best i => if value i ≤ best.2 then best else (some i, value i)) (none, 0)

variable {value : ℕ → R} {places : List ℕ}

theorem firstBest_spec (value : ℕ → R) (places : List ℕ) :
    0 ≤ (firstBest value places).2 ∧ (∀ i ∈ places, value i ≤ (firstBest value places).2) ∧
      ((firstBest value places).1 = none ∧ (firstBest value places).2 = 0 ∨
        ∃ i ∈ places, (firstBest value places).1 = some i ∧
          (firstBest value places).2 = value i ∧ 0 < value i) := by
  induction places using List.reverseRecOn with
  | nil => exact ⟨le_rfl, fun i hi => absurd hi List.not_mem_nil, .inl ⟨rfl, rfl⟩⟩
  | append_singleton places i ih =>
      obtain ⟨hnonneg, hle, hcase⟩ := ih
      rw [firstBest, List.foldl_append, List.foldl_cons, List.foldl_nil, ← firstBest]
      split_ifs with hnot
      · refine ⟨hnonneg, fun j hj => ?_, hcase.imp_right ?_⟩
        · rcases List.mem_append.mp hj with hj | hj
          · exact hle j hj
          · rwa [List.mem_singleton.mp hj]
        · rintro ⟨j, hj, hbest⟩
          exact ⟨j, List.mem_append_left _ hj, hbest⟩
      · have hlt := not_le.mp hnot
        refine ⟨hnonneg.trans hlt.le, fun j hj => ?_, .inr ⟨i, ?_, rfl, rfl, ?_⟩⟩
        · rcases List.mem_append.mp hj with hj | hj
          · exact (hle j hj).trans hlt.le
          · rw [List.mem_singleton.mp hj]
        · exact List.mem_append_right _ (List.mem_singleton_self i)
        · exact hnonneg.trans_lt hlt

theorem firstBest_eq_none_iff :
    (firstBest value places).1 = none ↔ ∀ i ∈ places, value i ≤ 0 := by
  obtain ⟨-, hle, ⟨hnone, hzero⟩ | ⟨i, hi, hsome, -, hpos⟩⟩ := firstBest_spec value places
  · rw [hzero] at hle
    exact iff_of_true hnone hle
  · rw [hsome]
    exact iff_of_false (fun h => nomatch h) fun h => absurd (h i hi) (not_le.mpr hpos)

/-- What is found is positive and the greatest. -/
theorem firstBest_eq_some {i : ℕ} (h : (firstBest value places).1 = some i) :
    i ∈ places ∧ 0 < value i ∧ ∀ j ∈ places, value j ≤ value i := by
  obtain ⟨-, hle, ⟨hnone, -⟩ | ⟨j, hj, hsome, hvalue, hpos⟩⟩ := firstBest_spec value places
  · rw [hnone] at h
    exact nomatch h
  · obtain rfl := Option.some.inj (hsome.symm.trans h)
    rw [hvalue] at hle
    exact ⟨hj, hpos, hle⟩

end Best

end RagflowMineru.Library.Narrowing
