import Mathlib

/-!
# Going through an interval in steps

An interval of integers is gone through in steps of a fixed length.  The slices between
the steps, the last of which may be shorter, make up the interval.
-/

namespace RagflowMineru.Library

variable {s e p : ℤ} {n : ℕ}

/-- `range(s, e, n)` -/
def rangeStep (s e : ℤ) (n : ℕ) : List ℤ :=
  (List.range ((e - s + n - 1) / n).toNat).map fun k : ℕ => s + k * n

/-- The slices that start at the steps. -/
def slices (s e : ℤ) (n : ℕ) : List (ℤ × ℤ) :=
  (rangeStep s e n).map fun p => (p, min (p + n) e)

theorem mem_rangeStep (hn : 0 < n) : p ∈ rangeStep s e n ↔ p < e ∧ ∃ k : ℕ, p = s + k * n := by
  have hpos : (0 : ℤ) < n := Int.natCast_pos.mpr hn
  have hlt : ∀ k : ℕ, k < ((e - s + n - 1) / n).toNat ↔ s + k * n < e := by
    intro k
    rw [Int.lt_toNat, ← Int.add_one_le_iff, Int.le_ediv_iff_mul_le hpos, add_mul]
    omega
  rw [rangeStep, List.mem_map]
  constructor
  · rintro ⟨k, hk, rfl⟩
    exact ⟨(hlt k).mp (List.mem_range.mp hk), k, rfl⟩
  · rintro ⟨hp, k, rfl⟩
    exact ⟨k, List.mem_range.mpr ((hlt k).mpr hp), rfl⟩

theorem pairwise_rangeStep (s e : ℤ) (n : ℕ) :
    (rangeStep s e n).Pairwise fun p q : ℤ => p + n ≤ q := by
  rw [rangeStep, List.pairwise_map]
  refine List.pairwise_lt_range.imp fun {j k} hjk => ?_
  have hstep : ((j + 1 : ℕ) : ℤ) * n ≤ k * n :=
    mul_le_mul_of_nonneg_right (Int.ofNat_le.mpr hjk) (Int.natCast_nonneg n)
  rw [Int.natCast_succ, add_mul, one_mul] at hstep
  rw [add_assoc]
  exact add_le_add_right hstep s

theorem slice_spec (hn : 0 < n) {t : ℤ × ℤ} (ht : t ∈ slices s e n) :
    s ≤ t.1 ∧ t.1 < t.2 ∧ t.2 ≤ e ∧ t.2 - t.1 ≤ n := by
  obtain ⟨p, hp, rfl⟩ := List.mem_map.mp ht
  obtain ⟨hlt, k, rfl⟩ := (mem_rangeStep hn).mp hp
  have hk : (0 : ℤ) ≤ k * n := mul_nonneg (Int.natCast_nonneg k) (Int.natCast_nonneg n)
  dsimp only
  omega

/-- Each slice ends before the next ones. -/
theorem pairwise_slices (s e : ℤ) (n : ℕ) : (slices s e n).Pairwise fun t u => t.2 ≤ u.1 := by
  rw [slices, List.pairwise_map]
  exact (pairwise_rangeStep s e n).imp fun h => (min_le_left _ _).trans h

theorem iUnion_slices (hn : 0 < n) : ⋃ t ∈ slices s e n, Set.Ico t.1 t.2 = Set.Ico s e := by
  ext p
  simp only [Set.mem_iUnion, Set.mem_Ico, exists_prop]
  constructor
  · rintro ⟨t, ht, hp⟩
    have hspec := slice_spec hn ht
    omega
  · rintro ⟨hs, he⟩
    -- the step at or before `p`
    obtain ⟨k, hk⟩ := Int.eq_ofNat_of_zero_le
      (Int.ediv_nonneg (sub_nonneg.mpr hs) (Int.natCast_nonneg n))
    have hpos : (0 : ℤ) < n := Int.natCast_pos.mpr hn
    have hmod := Int.emod_add_mul_ediv (p - s) n
    have hnonneg := Int.emod_nonneg (p - s) hpos.ne'
    have hless := Int.emod_lt_of_pos (p - s) hpos
    rw [hk, mul_comm] at hmod
    refine ⟨_, List.mem_map_of_mem ((mem_rangeStep hn).mpr ⟨?_, k, rfl⟩), ?_⟩
    · omega
    · dsimp only
      omega

/-! ## Stretches behind one another -/

theorem range_append {a b c : ℤ} (hab : a ≤ b) (hbc : b ≤ c) :
    Int.range a b ++ Int.range b c = Int.range a c := by
  have hlength : (c - a).toNat = (b - a).toNat + (c - b).toNat := by omega
  rw [Int.range, Int.range, Int.range, hlength, List.range_add, List.map_append, List.map_map]
  congr 1
  refine List.map_congr_left fun k _ => ?_
  simp only [Function.comp_apply, Nat.cast_add]
  omega

/-- Stretches of one length, each where the one before ends. -/
theorem flatMap_range_stretches (s : ℤ) {p : ℤ} (hp : 0 ≤ p) (k : ℕ) :
    ((List.range k).flatMap fun i : ℕ => Int.range (s + i * p) (s + (i + 1) * p)) =
      Int.range s (s + k * p) := by
  induction k with
  | zero => simp [Int.range]
  | succ k ih =>
    have hk : 0 ≤ k * p := mul_nonneg (Int.natCast_nonneg k) hp
    rw [List.range_succ, List.flatMap_append, ih, List.flatMap_singleton, Nat.cast_succ]
    refine range_append (le_add_of_nonneg_right hk) ?_
    rw [add_mul, one_mul]
    omega

end RagflowMineru.Library
