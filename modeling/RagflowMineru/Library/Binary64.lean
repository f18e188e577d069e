import Mathlib.Algebra.Order.Floor.Ring
import Mathlib.Algebra.Order.Ring.Abs
import Mathlib.Data.Int.Log
import Mathlib.Data.Rat.Floor
import Mathlib.Tactic.FieldSimp
import Mathlib.Tactic.Linarith
import Mathlib.Tactic.NormNum

/-!
# The binary64 quotient of two integers

The quotient of two integers rounded to a double: to the nearest one, to the
even one of two, with gradual underflow, and with an exception where the result
is too large.  Taking the ceiling of such a quotient is not the same as taking
the ceiling of the quotient; `CeilSurvives` says when it is.
-/

namespace RagflowMineru.Library.Binary64

/-- The integer nearest to `y`, the even one of two. -/
def roundHalfEven (y : ℚ) : ℤ :=
  if y - ⌊y⌋ < 1 / 2 then ⌊y⌋
  else if 1 / 2 < y - ⌊y⌋ then ⌊y⌋ + 1
  else if Even ⌊y⌋ then ⌊y⌋
  else ⌊y⌋ + 1

/-- The exponent of the last place of `x`. -/
def exponent (x : ℚ) : ℤ :=
  max (Int.log 2 |x| - 52) (-1074)

/-- The unit in the last place of `x`. -/
def ulp (x : ℚ) : ℚ :=
  2 ^ exponent x

/-- The double nearest to `x`, with no bound on its exponent. -/
def nearest (x : ℚ) : ℚ :=
  roundHalfEven (x / ulp x) * ulp x

/-- `a / b` of two integers; `none` for the division by zero and for a quotient
that is too large. -/
def trueDiv (a b : ℤ) : Option ℚ :=
  if b = 0 then none
  else if |nearest (a / b)| < 2 ^ 1024 then some (nearest (a / b))
  else none

/-- The integer below the ceiling of `x` is so far away that `x` is rounded
away from it, or, where doubles are more than `1` apart, the ceiling of `x` is
one. -/
def CeilSurvives (x : ℚ) : Prop :=
  if ulp x ≤ 1 then
    ulp x / 2 < x - (⌈x⌉ - 1) ∨
      ulp x / 2 = x - (⌈x⌉ - 1) ∧ Odd ⌊((⌈x⌉ : ℚ) - 1) / ulp x⌋
  else ∃ k : ℤ, (⌈x⌉ : ℚ) = k * ulp x

/-! ## Rounding to an integer -/

theorem le_roundHalfEven {y : ℚ} {n : ℤ} (h : (n : ℚ) ≤ y) :
    n ≤ roundHalfEven y := by
  have hfloor : n ≤ ⌊y⌋ := Int.le_floor.mpr h
  unfold roundHalfEven
  split_ifs <;> omega

theorem roundHalfEven_le {y : ℚ} {n : ℤ} (h : y ≤ n) :
    roundHalfEven y ≤ n := by
  have hle := Int.floor_le y
  rcases lt_or_eq_of_le h with hlt | rfl
  · have hfloor : ⌊y⌋ < n := Int.floor_lt.mpr hlt
    unfold roundHalfEven
    split_ifs <;> omega
  · simp [roundHalfEven]

/-- Rounding leaves the integer `n` below `y` behind when `y` is nearer to the
next one, or half way and `n` is odd. -/
theorem lt_roundHalfEven_iff {y : ℚ} {n : ℤ} (hn : (n : ℚ) ≤ y) :
    n < roundHalfEven y ↔ 1 / 2 < y - n ∨ 1 / 2 = y - n ∧ Odd n := by
  by_cases hnext : (n : ℚ) + 1 ≤ y
  · have hround : n + 1 ≤ roundHalfEven y := by
      apply le_roundHalfEven
      push_cast
      exact hnext
    have hfar : 1 / 2 < y - n := by linarith
    exact ⟨fun _ => Or.inl hfar, fun _ => hround⟩
  · have hfloor : ⌊y⌋ = n := by
      rw [Int.floor_eq_iff]
      exact ⟨hn, not_le.mp hnext⟩
    simp only [roundHalfEven, hfloor]
    rcases lt_trichotomy (y - n) (1 / 2) with hlt | heq | hgt
    · rw [if_pos hlt]
      constructor
      · intro h
        exact absurd h (lt_irrefl n)
      · rintro (h | ⟨h, -⟩)
        · exact absurd h (not_lt.mpr hlt.le)
        · exact absurd h.symm hlt.ne
    · rw [if_neg heq.not_lt, if_neg heq.symm.not_lt]
      by_cases heven : Even n
      · simp [heven, heq, Int.not_odd_iff_even]
      · simp [heven, heq, Int.not_even_iff_odd.mp heven]
    · rw [if_neg (not_lt.mpr hgt.le), if_pos hgt]
      exact ⟨fun _ => Or.inl hgt, fun _ => Int.lt_succ n⟩

theorem roundHalfEven_of_near {y : ℚ} {n : ℤ} (h : |y - n| < 1 / 2) :
    roundHalfEven y = n := by
  obtain ⟨hlow, hhigh⟩ := abs_lt.mp h
  apply le_antisymm
  · by_contra hlt
    push Not at hlt
    by_cases hn : (n : ℚ) ≤ y
    · rcases (lt_roundHalfEven_iff hn).mp hlt with hfar | ⟨hfar, -⟩
      · linarith
      · linarith
    · exact absurd (roundHalfEven_le (not_le.mp hn).le) (not_le.mpr hlt)
  · by_cases hn : (n : ℚ) ≤ y
    · exact le_roundHalfEven hn
    · have hprev : ((n - 1 : ℤ) : ℚ) ≤ y := by
        push_cast
        linarith
      have hround := (lt_roundHalfEven_iff hprev).mpr
        (Or.inl (by push_cast; linarith))
      omega

/-! ## The unit in the last place -/

theorem ulp_pos (x : ℚ) : 0 < ulp x :=
  zpow_pos (by norm_num) _

/-- A unit of at most `1` divides `1`. -/
theorem exists_mul_ulp_eq_one {x : ℚ} (h : ulp x ≤ 1) :
    ∃ c : ℤ, 0 < c ∧ c * ulp x = 1 := by
  have hexponent : exponent x ≤ 0 := by
    rw [ulp] at h
    exact (zpow_le_one_iff_right₀ (by norm_num)).mp h
  refine ⟨2 ^ (-exponent x).toNat, by positivity, ?_⟩
  have hcast : (((2 : ℤ) ^ (-exponent x).toNat : ℤ) : ℚ) =
      2 ^ (-exponent x) := by
    push_cast
    rw [← zpow_natCast, Int.toNat_of_nonneg (by omega)]
  rw [hcast, ulp, ← zpow_add₀ (by norm_num), neg_add_cancel, zpow_zero]

/-- A unit of more than `1` is an integer. -/
theorem exists_ulp_eq {x : ℚ} (h : ¬ ulp x ≤ 1) :
    ∃ u : ℤ, 2 ≤ u ∧ ulp x = u := by
  have hexponent : 0 < exponent x := by
    rw [ulp] at h
    exact not_le.mp (mt (zpow_le_one_iff_right₀ (by norm_num)).mpr h)
  refine ⟨2 ^ (exponent x).toNat, ?_, ?_⟩
  · apply le_self_pow₀ (by norm_num)
    omega
  · push_cast
    rw [← zpow_natCast, Int.toNat_of_nonneg (by omega), ulp]

/-- The exponent, and so the unit, is bounded by the size. -/
theorem ulp_le {x : ℚ} {k : ℤ} (hx : 0 < x) (hk : -1074 ≤ k - 53)
    (h : x < 2 ^ k) : ulp x ≤ 2 ^ (k - 53) := by
  have hlog : Int.log 2 |x| < k := by
    rw [abs_of_pos hx]
    exact (Int.lt_zpow_iff_log_lt (by norm_num) hx).mp (by exact_mod_cast h)
  apply zpow_le_zpow_right₀ (by norm_num)
  rw [exponent]
  omega

/-- The unit of a normal number between two powers of two. -/
theorem ulp_eq {x : ℚ} {k : ℤ} (hk : -1022 ≤ k) (hle : 2 ^ k ≤ x)
    (hlt : x < 2 ^ (k + 1)) : ulp x = 2 ^ (k - 52) := by
  have hx : 0 < x := lt_of_lt_of_le (zpow_pos (by norm_num) k) hle
  have hlow : k ≤ Int.log 2 x :=
    (Int.zpow_le_iff_le_log (by norm_num) hx).mp (by exact_mod_cast hle)
  have hhigh : Int.log 2 x < k + 1 :=
    (Int.lt_zpow_iff_log_lt (by norm_num) hx).mp (by exact_mod_cast hlt)
  rw [ulp, exponent, abs_of_pos hx, le_antisymm (Int.lt_add_one_iff.mp hhigh) hlow,
    max_eq_left (by omega)]

/-- Doubles that are at most `1` apart are less than `2 ^ 53`. -/
theorem lt_of_ulp_le_one {x : ℚ} (h : ulp x ≤ 1) : x < 2 ^ 53 := by
  have hexponent : exponent x ≤ 0 := by
    rw [ulp] at h
    exact (zpow_le_one_iff_right₀ (by norm_num)).mp h
  rw [exponent] at hexponent
  have hlog : Int.log 2 |x| + 1 ≤ 53 := by omega
  calc
    x ≤ |x| := le_abs_self x
    _ < (2 : ℕ) ^ (Int.log 2 |x| + 1) :=
      Int.lt_zpow_succ_log_self (by norm_num) _
    _ ≤ (2 : ℚ) ^ (53 : ℤ) := by
      push_cast
      exact zpow_le_zpow_right₀ (by norm_num) hlog
    _ = 2 ^ 53 := by norm_num

/-! ## The ceiling of a rounded number -/

/-- Where doubles are at most `1` apart, rounding does not cross the ceiling. -/
theorem nearest_le_ceil {x : ℚ} (h : ulp x ≤ 1) : nearest x ≤ ⌈x⌉ := by
  obtain ⟨c, hc, hcu⟩ := exists_mul_ulp_eq_one h
  have hquotient : x / ulp x ≤ ((⌈x⌉ * c : ℤ) : ℚ) := by
    rw [div_le_iff₀ (ulp_pos x)]
    push_cast
    rw [mul_assoc, hcu, mul_one]
    exact Int.le_ceil x
  have hround : (roundHalfEven (x / ulp x) : ℚ) ≤ ((⌈x⌉ * c : ℤ) : ℚ) := by
    exact_mod_cast roundHalfEven_le hquotient
  calc
    nearest x ≤ ((⌈x⌉ * c : ℤ) : ℚ) * ulp x :=
      mul_le_mul_of_nonneg_right hround (ulp_pos x).le
    _ = ⌈x⌉ := by
      push_cast
      rw [mul_assoc, hcu, mul_one]

/-- Where doubles are at most `1` apart, the integer below the ceiling is one,
and the ceiling survives unless `x` is rounded to it. -/
theorem ceil_nearest_eq_iff_of_le {x : ℚ} (h : ulp x ≤ 1) :
    ⌈nearest x⌉ = ⌈x⌉ ↔ CeilSurvives x := by
  obtain ⟨c, hc, hcu⟩ := exists_mul_ulp_eq_one h
  have hcpos : (0 : ℚ) < c := by exact_mod_cast hc
  have hdiv : ∀ y : ℚ, y / ulp x = y * c := by
    intro y
    rw [div_eq_iff (ulp_pos x).ne', mul_assoc, hcu, mul_one]
  have hhalf : ulp x / 2 * c = 1 / 2 := by
    rw [div_mul_eq_mul_div, mul_comm, hcu]
  have hbelow : (⌈x⌉ : ℚ) - 1 < x := by
    linarith [Int.ceil_lt_add_one x]
  have hlow : (((⌈x⌉ - 1) * c : ℤ) : ℚ) ≤ x / ulp x := by
    rw [hdiv]
    push_cast
    exact mul_le_mul_of_nonneg_right hbelow.le hcpos.le
  have hnearest : nearest x * c = roundHalfEven (x / ulp x) := by
    rw [nearest, mul_assoc, mul_comm (ulp x), hcu, mul_one]
  have hgrid : ⌊((⌈x⌉ : ℚ) - 1) / ulp x⌋ = (⌈x⌉ - 1) * c := by
    rw [hdiv]
    exact_mod_cast Int.floor_intCast ((⌈x⌉ - 1) * c)
  have hdistance : x / ulp x - ((⌈x⌉ - 1) * c : ℤ) =
      (x - (⌈x⌉ - 1)) * c := by
    rw [hdiv]
    push_cast
    ring
  calc
    ⌈nearest x⌉ = ⌈x⌉ ↔ (⌈x⌉ : ℚ) - 1 < nearest x := by
      rw [Int.ceil_eq_iff]
      exact and_iff_left (nearest_le_ceil h)
    _ ↔ (⌈x⌉ - 1) * c < roundHalfEven (x / ulp x) := by
      rw [← mul_lt_mul_iff_left₀ hcpos, hnearest]
      exact_mod_cast Iff.rfl
    _ ↔ 1 / 2 < (x - (⌈x⌉ - 1)) * c ∨
          1 / 2 = (x - (⌈x⌉ - 1)) * c ∧ Odd ((⌈x⌉ - 1) * c) := by
      rw [lt_roundHalfEven_iff hlow, hdistance]
    _ ↔ CeilSurvives x := by
      rw [CeilSurvives, if_pos h, hgrid, ← hhalf,
        mul_lt_mul_iff_left₀ hcpos, mul_left_inj' hcpos.ne']

/-- Where doubles are more than `1` apart, they are integers, and the ceiling
survives if it is one of them. -/
theorem nearest_eq_ceil_iff_of_gt {x : ℚ} (h : ¬ ulp x ≤ 1) :
    nearest x = ⌈x⌉ ↔ CeilSurvives x := by
  obtain ⟨u, hu, hux⟩ := exists_ulp_eq h
  have hu' : (2 : ℚ) ≤ u := by exact_mod_cast hu
  rw [CeilSurvives, if_neg h]
  constructor
  · intro heq
    exact ⟨roundHalfEven (x / ulp x), heq.symm⟩
  · rintro ⟨k, hk⟩
    have hnear : |x / ulp x - k| < 1 / 2 := by
      have hsub : x / ulp x - k = (x - ⌈x⌉) / u := by
        rw [hk, hux]
        field_simp
      rw [hsub, abs_div, abs_of_pos (by linarith : (0 : ℚ) < u),
        div_lt_iff₀ (by linarith), abs_lt]
      constructor
      · linarith [Int.ceil_lt_add_one x]
      · linarith [Int.le_ceil x]
    rw [nearest, roundHalfEven_of_near hnear, hk]

theorem ceil_nearest_eq_iff (x : ℚ) : ⌈nearest x⌉ = ⌈x⌉ ↔ CeilSurvives x := by
  by_cases h : ulp x ≤ 1
  · exact ceil_nearest_eq_iff_of_le h
  · rw [← nearest_eq_ceil_iff_of_gt h]
    obtain ⟨u, -, hux⟩ := exists_ulp_eq h
    have hinteger : (⌈nearest x⌉ : ℚ) = nearest x := by
      have hcast : nearest x = ((roundHalfEven (x / ulp x) * u : ℤ) : ℚ) := by
        rw [nearest, hux]
        push_cast
        rfl
      rw [hcast, Int.ceil_intCast]
    constructor
    · intro heq
      rw [← hinteger, heq]
    · intro heq
      rw [heq, Int.ceil_intCast]

theorem nearest_nonneg {x : ℚ} (hx : 0 ≤ x) : 0 ≤ nearest x := by
  apply mul_nonneg _ (ulp_pos x).le
  exact_mod_cast le_roundHalfEven (n := 0)
    (by exact_mod_cast div_nonneg hx (ulp_pos x).le)

/-- Rounding does not go below a power of two. -/
theorem zpow_le_nearest {x : ℚ} {k : ℤ} (hk : -1022 ≤ k) (h : 2 ^ k ≤ x) :
    2 ^ k ≤ nearest x := by
  have hx : 0 < x := lt_of_lt_of_le (zpow_pos (by norm_num) k) h
  have hlog : k ≤ Int.log 2 x :=
    (Int.zpow_le_iff_le_log (by norm_num) hx).mp (by exact_mod_cast h)
  have hlow : (2 : ℚ) ^ Int.log 2 x ≤ x := by
    exact_mod_cast Int.zpow_log_le_self (b := 2) (by norm_num) hx
  have hulp : ulp x = 2 ^ (Int.log 2 x - 52) := by
    rw [ulp, exponent, abs_of_pos hx, max_eq_left (by omega)]
  have hmantissa : (2 : ℚ) ^ (52 : ℤ) * ulp x = 2 ^ Int.log 2 x := by
    rw [hulp, ← zpow_add₀ (by norm_num)]
    congr 1
    omega
  have hround : ((2 ^ 52 : ℤ) : ℚ) ≤ roundHalfEven (x / ulp x) := by
    have hquotient : ((2 ^ 52 : ℤ) : ℚ) ≤ x / ulp x := by
      rw [le_div_iff₀ (ulp_pos x)]
      push_cast
      exact le_trans (le_of_eq hmantissa) hlow
    exact_mod_cast le_roundHalfEven hquotient
  calc
    (2 : ℚ) ^ k ≤ 2 ^ Int.log 2 x :=
      zpow_le_zpow_right₀ (by norm_num) hlog
    _ = 2 ^ (52 : ℤ) * ulp x := hmantissa.symm
    _ ≤ nearest x :=
      mul_le_mul_of_nonneg_right (by exact_mod_cast hround) (ulp_pos x).le

/-- A common factor does not change a quotient. -/
theorem trueDiv_mul_right (a b : ℤ) {c : ℤ} (hc : c ≠ 0) :
    trueDiv (a * c) (b * c) = trueDiv a b := by
  have hquotient : ((a * c : ℤ) : ℚ) / ((b * c : ℤ) : ℚ) = a / b := by
    push_cast
    exact mul_div_mul_right _ _ (by exact_mod_cast hc)
  have hzero : b * c = 0 ↔ b = 0 := by
    rw [mul_eq_zero, or_iff_left hc]
  simp only [trueDiv, hquotient, hzero]

/-- A quotient from `2 ^ 1024` on is too large. -/
theorem trueDiv_eq_none {a b : ℤ} (hb : 0 < b) (h : 2 ^ 1024 * b ≤ a) :
    trueDiv a b = none := by
  have hbpos : (0 : ℚ) < b := by exact_mod_cast hb
  have hlarge : (2 : ℚ) ^ (1024 : ℤ) ≤ a / b := by
    have hcast := Int.cast_le (R := ℚ).mpr h
    rw [Int.cast_mul, Int.cast_pow, Int.cast_ofNat] at hcast
    rw [le_div_iff₀ hbpos, zpow_ofNat]
    exact hcast
  have hnearest := zpow_le_nearest (by norm_num) hlarge
  have habs : ¬ |nearest (a / b)| < 2 ^ 1024 := by
    rw [zpow_ofNat] at hnearest
    exact not_lt.mpr (hnearest.trans (le_abs_self _))
  rw [trueDiv, if_neg hb.ne', if_neg habs]

/-- When the ceiling of a quotient can be computed through a double. -/
theorem ceil_trueDiv_iff {a b : ℤ} (ha : 0 ≤ a) (hb : 0 < b) :
    (∃ q, trueDiv a b = some q ∧ ⌈q⌉ = ⌈(a / b : ℚ)⌉) ↔
      CeilSurvives (a / b) ∧ ⌈(a / b : ℚ)⌉ < 2 ^ 1024 := by
  have hx : (0 : ℚ) ≤ a / b :=
    div_nonneg (by exact_mod_cast ha) (by exact_mod_cast hb.le)
  have habs : |nearest (a / b)| = nearest (a / b) :=
    abs_of_nonneg (nearest_nonneg hx)
  have hsome : (∃ q, trueDiv a b = some q ∧ ⌈q⌉ = ⌈(a / b : ℚ)⌉) ↔
      nearest (a / b) < 2 ^ 1024 ∧ ⌈nearest (a / b : ℚ)⌉ = ⌈(a / b : ℚ)⌉ := by
    rw [trueDiv, if_neg hb.ne', habs]
    by_cases hlarge : nearest (a / b) < 2 ^ 1024
    · simp [hlarge]
    · simp [hlarge]
  have hpow : (2 : ℚ) ^ 1024 = ((2 ^ 1024 : ℤ) : ℚ) := by
    rw [Int.cast_pow, Int.cast_ofNat]
  rw [hsome, ceil_nearest_eq_iff, and_comm]
  apply and_congr_right
  intro hsurvives
  constructor
  · intro hbound
    by_cases h : ulp (a / b : ℚ) ≤ 1
    · have hsmall : ⌈(a / b : ℚ)⌉ ≤ 2 ^ 53 := by
        apply Int.ceil_le.mpr
        push_cast
        exact (lt_of_ulp_le_one h).le
      exact lt_of_le_of_lt hsmall
        (pow_lt_pow_right₀ (by norm_num) (by norm_num))
    · rwa [(nearest_eq_ceil_iff_of_gt h).mpr hsurvives, hpow,
        Int.cast_lt] at hbound
  · intro hbound
    have hceil := (ceil_nearest_eq_iff _).mpr hsurvives
    calc
      nearest (a / b) ≤ ⌈nearest (a / b : ℚ)⌉ := Int.le_ceil _
      _ = ⌈(a / b : ℚ)⌉ := by rw [hceil]
      _ < 2 ^ 1024 := by rwa [hpow, Int.cast_lt]

/-! ## Quotients whose ceiling survives -/

/-- A quotient by `b` is at least `1 / b` away from the integer below its
ceiling. -/
theorem ceilSurvives_div {a b : ℤ} (hb : 0 < b) (hone : ulp (a / b) ≤ 1)
    (hulp : ulp (a / b) * b < 2) : CeilSurvives (a / b) := by
  have hbpos : (0 : ℚ) < b := by exact_mod_cast hb
  have hbelow : ((⌈(a / b : ℚ)⌉ : ℚ) - 1) * b < a := by
    rw [← lt_div_iff₀ hbpos]
    linarith [Int.ceil_lt_add_one (a / b : ℚ)]
  have hgap : ((⌈(a / b : ℚ)⌉ : ℚ) - 1) * b + 1 ≤ a := by
    exact_mod_cast hbelow
  rw [CeilSurvives, if_pos hone]
  left
  rw [← mul_lt_mul_iff_left₀ hbpos, sub_mul, div_mul_cancel₀ _ hbpos.ne']
  linarith

/-- Up to `1`, the ceiling survives unless the number is rounded to `0`. -/
theorem ceilSurvives_iff_of_le_one {x : ℚ} (hx : 0 < x) (hone : x ≤ 1) :
    CeilSurvives x ↔ (2 : ℚ) ^ (-1075 : ℤ) < x := by
  have hceil : ⌈x⌉ = 1 := by
    rw [Int.ceil_eq_iff]
    exact ⟨by simpa using hx, by simpa using hone⟩
  have hulp : ulp x ≤ 1 := by
    have hle := ulp_le hx (k := 1) (by norm_num) (by linarith)
    exact hle.trans (by norm_num)
  have hlog : (2 : ℚ) ^ Int.log 2 x ≤ x := by
    exact_mod_cast Int.zpow_log_le_self (b := 2) (by norm_num) hx
  have hhalf : ulp x / 2 = 2 ^ (exponent x - 1) := by
    rw [ulp, zpow_sub_one₀ (by norm_num)]
    ring
  rw [CeilSurvives, if_pos hulp, hceil, hhalf]
  simp only [Int.cast_one, sub_self, zero_div, sub_zero, Int.floor_zero,
    Int.not_odd_zero, and_false, or_false]
  constructor
  · intro h
    refine lt_of_le_of_lt ?_ h
    apply zpow_le_zpow_right₀ (by norm_num)
    rw [exponent]
    omega
  · intro h
    by_cases hsub : Int.log 2 |x| - 52 ≤ -1074
    · rwa [exponent, max_eq_right hsub]
    · rw [exponent, max_eq_left (not_le.mp hsub).le, abs_of_pos hx]
      refine lt_of_lt_of_le ?_ hlog
      apply zpow_lt_zpow_right₀ (by norm_num)
      omega

/-! ## Rounding keeps the order -/

theorem roundHalfEven_mono {x y : ℚ} (h : x ≤ y) : roundHalfEven x ≤ roundHalfEven y := by
  rcases lt_or_ge ⌊x⌋ ⌊y⌋ with hlt | hge
  · calc
      roundHalfEven x ≤ ⌊x⌋ + 1 :=
        roundHalfEven_le (by exact_mod_cast (Int.lt_floor_add_one x).le)
      _ ≤ ⌊y⌋ := hlt
      _ ≤ roundHalfEven y := le_roundHalfEven (Int.floor_le y)
  · have hfloor : ⌊x⌋ = ⌊y⌋ := le_antisymm (Int.floor_mono h) hge
    unfold roundHalfEven
    rw [hfloor]
    split_ifs <;> first | omega | (exfalso; linarith)

theorem abs_roundHalfEven_sub_le (y : ℚ) : |(roundHalfEven y : ℚ) - y| ≤ 1 / 2 := by
  have hlow := Int.floor_le y
  have hhigh := Int.lt_floor_add_one y
  rw [abs_le]
  unfold roundHalfEven
  split_ifs <;> push_cast <;> constructor <;> linarith

theorem roundHalfEven_intCast (n : ℤ) : roundHalfEven n = n := by
  simp [roundHalfEven]

theorem roundHalfEven_neg (y : ℚ) : roundHalfEven (-y) = -roundHalfEven y := by
  rcases eq_or_lt_of_le (Int.floor_le y) with heq | hlt
  · rw [← heq, ← Int.cast_neg, roundHalfEven_intCast, roundHalfEven_intCast]
  · have hnext := Int.lt_floor_add_one y
    have hfloor : ⌊-y⌋ = -⌊y⌋ - 1 := by
      rw [Int.floor_eq_iff]
      push_cast
      constructor <;> linarith
    have hparity : Even (-⌊y⌋ - 1) ↔ ¬ Even ⌊y⌋ := by
      rw [Int.even_sub_one, even_neg]
    unfold roundHalfEven
    rw [hfloor]
    push_cast
    simp only [hparity]
    split_ifs <;> first | omega | (exfalso; linarith)

theorem ulp_neg (x : ℚ) : ulp (-x) = ulp x := by
  rw [ulp, ulp, exponent, exponent, abs_neg]

theorem nearest_neg (x : ℚ) : nearest (-x) = -nearest x := by
  rw [nearest, nearest, ulp_neg, neg_div, roundHalfEven_neg]
  push_cast
  ring

theorem nearest_mono_of_nonneg {x y : ℚ} (hx : 0 ≤ x) (h : x ≤ y) : nearest x ≤ nearest y := by
  rcases eq_or_lt_of_le hx with rfl | hx
  · have hzero : nearest 0 = 0 := by
      simp [nearest, roundHalfEven]
    rw [hzero]
    exact nearest_nonneg h
  have hy : 0 < y := hx.trans_le h
  rcases lt_or_ge (exponent x) (exponent y) with hlt | hge
  · -- A power of two stands between them, and it is a multiple of the smaller unit.
    rw [exponent, exponent, abs_of_pos hx, abs_of_pos hy] at hlt
    set k := Int.log 2 y
    have hxk : x ≤ 2 ^ k := by
      refine ((Int.lt_zpow_iff_log_lt (b := 2) (by norm_num) hx).mpr ?_).le.trans_eq (by norm_cast)
      omega
    have hky : (2 : ℚ) ^ k ≤ y := by
      exact_mod_cast Int.zpow_log_le_self (b := 2) (by norm_num) hy
    have hmultiple : (2 : ℚ) ^ k = ((2 ^ (k - exponent x).toNat : ℤ) : ℚ) * ulp x := by
      push_cast
      rw [← zpow_natCast, Int.toNat_of_nonneg, ulp, ← zpow_add₀ (by norm_num), sub_add_cancel]
      rw [exponent, abs_of_pos hx]
      omega
    calc
      nearest x ≤ ((2 ^ (k - exponent x).toNat : ℤ) : ℚ) * ulp x := by
        refine mul_le_mul_of_nonneg_right ?_ (ulp_pos x).le
        have hquotient : x / ulp x ≤ ((2 ^ (k - exponent x).toNat : ℤ) : ℚ) := by
          rwa [div_le_iff₀ (ulp_pos x), ← hmultiple]
        exact_mod_cast roundHalfEven_le hquotient
      _ = 2 ^ k := hmultiple.symm
      _ ≤ nearest y := zpow_le_nearest (by omega) hky
  · have hlog : Int.log 2 x ≤ Int.log 2 y := Int.log_mono_right hx h
    have hexponent : exponent x = exponent y := by
      refine le_antisymm ?_ hge
      rw [exponent, exponent, abs_of_pos hx, abs_of_pos hy]
      omega
    have hulp : ulp x = ulp y := by
      rw [ulp, ulp, hexponent]
    rw [nearest, nearest, hulp]
    refine mul_le_mul_of_nonneg_right ?_ (ulp_pos y).le
    exact_mod_cast roundHalfEven_mono (div_le_div_of_nonneg_right h (ulp_pos y).le)

theorem nearest_mono {x y : ℚ} (h : x ≤ y) : nearest x ≤ nearest y := by
  rcases le_total 0 x with hx | hx
  · exact nearest_mono_of_nonneg hx h
  · rcases le_total 0 y with hy | hy
    · have hneg := nearest_nonneg (neg_nonneg.mpr hx)
      rw [nearest_neg] at hneg
      exact (neg_nonneg.mp hneg).trans (nearest_nonneg hy)
    · have hneg := nearest_mono_of_nonneg (neg_nonneg.mpr hy) (neg_le_neg h)
      rw [nearest_neg, nearest_neg] at hneg
      exact neg_le_neg_iff.mp hneg

/-- Integers below `2 ^ 53` are doubles. -/
theorem nearest_intCast {m : ℤ} (h : |m| < 2 ^ 53) : nearest m = m := by
  rcases eq_or_ne m 0 with rfl | hm
  · simp [nearest, roundHalfEven]
  have hpos : (0 : ℚ) < |(m : ℚ)| := abs_pos.mpr (by exact_mod_cast hm)
  have hlog : Int.log 2 |(m : ℚ)| < 53 := by
    refine (Int.lt_zpow_iff_log_lt (by norm_num) hpos).mp ?_
    exact_mod_cast h
  have hulp : ulp (m : ℚ) ≤ 1 := by
    rw [ulp]
    refine zpow_le_one_of_nonpos₀ (by norm_num) ?_
    rw [exponent]
    omega
  obtain ⟨c, -, hc⟩ := exists_mul_ulp_eq_one hulp
  have hquotient : (m : ℚ) / ulp m = ((m * c : ℤ) : ℚ) := by
    rw [div_eq_iff (ulp_pos _).ne']
    push_cast
    rw [mul_assoc, hc, mul_one]
  rw [nearest, hquotient, roundHalfEven_intCast]
  push_cast
  rw [mul_assoc, hc, mul_one]

end RagflowMineru.Library.Binary64
