import RagflowMineru.Library.Driven
import Mathlib.Algebra.Order.Field.Rat
import Mathlib.Tactic.Linarith
import Mathlib.Tactic.Ring

/-!
# The token bucket script

The Lua script that both servers run to limit the rate of calls, over exact
rationals.  The caller brings the clock along; a call that is denied writes
nothing.
-/

namespace RagflowMineru.Redis

open RagflowMineru.Library

/-- The arguments that stay the same for a key. -/
structure Limits where
  capacity : ℚ
  rate : ℚ
  capacity_pos : 0 < capacity
  rate_pos : 0 < rate

/-- The fields of the hash under the key. -/
structure Bucket where
  tokens : ℚ
  timestamp : ℚ
  deriving DecidableEq

/-- `tokens` after the refill. -/
def available (l : Limits) (stored : Option Bucket) (now : ℚ) : ℚ :=
  -- a missing bucket is full, and was filled just now
  let bucket := stored.getD ⟨l.capacity, now⟩
  let delta := max 0 (now - bucket.timestamp)
  min l.capacity (bucket.tokens + delta * l.rate)

/-- The answer of the script, and the hash it leaves. -/
def luaTokenBucket (l : Limits) (stored : Option Bucket) (now cost : ℚ) :
    (Bool × ℚ) × Option Bucket :=
  let tokens := available l stored now
  if tokens < cost then ((false, tokens), stored)
  else ((true, tokens - cost), some ⟨tokens - cost, now⟩)

/-! ## A sequence of calls -/

structure Request where
  now : ℚ
  cost : ℚ
  cost_nonneg : 0 ≤ cost

/-- The bucket, the cost granted so far, and the smallest and the largest `now`. -/
structure Limiter where
  bucket : Option Bucket
  granted : ℚ
  span : Option (ℚ × ℚ)

def Limiter.start : Limiter := ⟨none, 0, none⟩

def widen (span : Option (ℚ × ℚ)) (now : ℚ) : ℚ × ℚ :=
  match span with
  | none => (now, now)
  | some (earliest, latest) => (min earliest now, max latest now)

def Limiter.width (s : Limiter) : ℚ :=
  match s.span with
  | none => 0
  | some (earliest, latest) => latest - earliest

def limiterStep (l : Limits) (s : Limiter) (r : Request) : Option Limiter :=
  let result := luaTokenBucket l s.bucket r.now r.cost
  some
    { bucket := result.2
      granted := if result.1.1 then s.granted + r.cost else s.granted
      span := some (widen s.span r.now) }

/-- What is claimed of the calls made so far. -/
structure RateKept (l : Limits) (s : Limiter) : Prop where
  tokens_nonneg : ∀ bucket, s.bucket = some bucket → 0 ≤ bucket.tokens
  tokens_le : ∀ bucket, s.bucket = some bucket → bucket.tokens ≤ l.capacity
  granted_le : s.granted ≤ l.capacity + l.rate * s.width

/-- The condition on a call: if its clock is behind the stored timestamp, it asks
for more than is stored. -/
def Forward (s : Limiter) (r : Request) : Prop :=
  ∀ bucket ∈ s.bucket, r.now < bucket.timestamp → bucket.tokens < r.cost

instance (s : Limiter) (r : Request) : Decidable (Forward s r) :=
  inferInstanceAs
    (Decidable (∀ bucket ∈ s.bucket, r.now < bucket.timestamp → bucket.tokens < r.cost))

/-! ## The tokens stay in the bucket -/

theorem available_le (l : Limits) (stored : Option Bucket) (now : ℚ) :
    available l stored now ≤ l.capacity :=
  min_le_left _ _

theorem available_none (l : Limits) (now : ℚ) : available l none now = l.capacity := by
  simp [available]

theorem available_le_refilled (l : Limits) {bucket : Bucket} {now : ℚ}
    (hnow : bucket.timestamp ≤ now) :
    available l (some bucket) now ≤ bucket.tokens + (now - bucket.timestamp) * l.rate := by
  have hdelta : max 0 (now - bucket.timestamp) = now - bucket.timestamp :=
    max_eq_right (sub_nonneg.mpr hnow)
  calc
    available l (some bucket) now
        ≤ bucket.tokens + max 0 (now - bucket.timestamp) * l.rate := min_le_right _ _
    _ = bucket.tokens + (now - bucket.timestamp) * l.rate := by rw [hdelta]

/-- A clock that is behind refills nothing. -/
theorem available_le_tokens (l : Limits) {bucket : Bucket} {now : ℚ}
    (hnow : now < bucket.timestamp) : available l (some bucket) now ≤ bucket.tokens := by
  have hdelta : max 0 (now - bucket.timestamp) = 0 :=
    max_eq_left (sub_nonpos.mpr hnow.le)
  calc
    available l (some bucket) now
        ≤ bucket.tokens + max 0 (now - bucket.timestamp) * l.rate := min_le_right _ _
    _ = bucket.tokens := by rw [hdelta, zero_mul, add_zero]

/-- The two outcomes of a call. -/
theorem limiterStep_cases {l : Limits} {s t : Limiter} {r : Request}
    (hstep : limiterStep l s r = some t) :
    (available l s.bucket r.now < r.cost ∧
        t = { s with span := some (widen s.span r.now) }) ∨
      (r.cost ≤ available l s.bucket r.now ∧
        t = { bucket := some ⟨available l s.bucket r.now - r.cost, r.now⟩
              granted := s.granted + r.cost
              span := some (widen s.span r.now) }) := by
  obtain rfl := Option.some.inj hstep
  by_cases hdenied : available l s.bucket r.now < r.cost
  · exact .inl ⟨hdenied, by simp [luaTokenBucket, hdenied]⟩
  · exact .inr ⟨not_lt.mp hdenied, by simp [luaTokenBucket, hdenied]⟩

/-- Whatever the clock does, the tokens stay between zero and the capacity. -/
theorem tokens_mem_of_driven {l : Limits} {s : Limiter} {P : Limiter → Request → Prop}
    (hs : Driven (limiterStep l) P Limiter.start s) :
    ∀ bucket, s.bucket = some bucket → 0 ≤ bucket.tokens ∧ bucket.tokens ≤ l.capacity := by
  refine hs.invariant (I := fun s => ∀ bucket, s.bucket = some bucket →
    0 ≤ bucket.tokens ∧ bucket.tokens ≤ l.capacity) nofun ?_
  intro s r t hs _ hstep
  obtain ⟨-, rfl⟩ | ⟨hcost, rfl⟩ := limiterStep_cases hstep
  · exact hs
  · intro bucket hbucket
    obtain rfl := Option.some.inj hbucket
    refine ⟨sub_nonneg.mpr hcost, ?_⟩
    exact (sub_le_self _ r.cost_nonneg).trans (available_le l s.bucket r.now)

/-! ## What has been granted -/

/-- The potential: what was granted and what is left never exceed the capacity and
the refill since the earliest call. -/
structure LimiterInv (l : Limits) (s : Limiter) : Prop where
  unused : s.bucket = none → s.granted = 0
  potential : ∀ bucket, s.bucket = some bucket →
    ∃ earliest latest, s.span = some (earliest, latest) ∧
      earliest ≤ bucket.timestamp ∧ bucket.timestamp ≤ latest ∧
      s.granted + bucket.tokens ≤ l.capacity + l.rate * (bucket.timestamp - earliest)

theorem limiterInv_start (l : Limits) : LimiterInv l Limiter.start :=
  ⟨fun _ => rfl, nofun⟩

theorem widen_le (span : Option (ℚ × ℚ)) (now : ℚ) :
    (widen span now).1 ≤ now ∧ now ≤ (widen span now).2 := by
  cases span with
  | none => exact ⟨le_rfl, le_rfl⟩
  | some span => exact ⟨min_le_right _ _, le_max_right _ _⟩

section

variable {l : Limits} {s : Limiter}

theorem LimiterInv.deny (hinv : LimiterInv l s) (now : ℚ) :
    LimiterInv l { s with span := some (widen s.span now) } := by
  refine ⟨hinv.unused, fun bucket hbucket => ?_⟩
  obtain ⟨earliest, latest, hspan, hearliest, hlatest, hpotential⟩ :=
    hinv.potential bucket hbucket
  refine ⟨min earliest now, max latest now, by rw [hspan]; rfl, (min_le_left _ _).trans hearliest,
    hlatest.trans (le_max_left _ _), hpotential.trans ?_⟩
  have hmin : min earliest now ≤ earliest := min_le_left _ _
  have hrate := mul_le_mul_of_nonneg_left
    (sub_le_sub_left hmin bucket.timestamp) l.rate_pos.le
  linarith

theorem LimiterInv.grant (hinv : LimiterInv l s) {r : Request} (hforward : Forward s r)
    (hcost : r.cost ≤ available l s.bucket r.now) :
    LimiterInv l
      { bucket := some ⟨available l s.bucket r.now - r.cost, r.now⟩
        granted := s.granted + r.cost
        span := some (widen s.span r.now) } := by
  refine ⟨nofun, fun bucket hbucket => ?_⟩
  obtain rfl := Option.some.inj hbucket
  obtain ⟨hearliest, hlatest⟩ := widen_le s.span r.now
  refine ⟨_, _, rfl, hearliest, hlatest, ?_⟩
  have hsum : s.granted + r.cost + (available l s.bucket r.now - r.cost) =
      s.granted + available l s.bucket r.now := by
    ring
  rw [hsum]
  change s.granted + available l s.bucket r.now ≤
    l.capacity + l.rate * (r.now - (widen s.span r.now).1)
  cases hstored : s.bucket with
  | none =>
      have hrefill := mul_nonneg l.rate_pos.le (sub_nonneg.mpr hearliest)
      rw [hinv.unused hstored, available_none]
      linarith
  | some stored =>
      rw [hstored] at hcost
      have hnow : stored.timestamp ≤ r.now := by
        by_contra hbehind
        have hless := hforward stored hstored (not_le.mp hbehind)
        exact absurd (hcost.trans (available_le_tokens l (not_le.mp hbehind))) (not_le.mpr hless)
      obtain ⟨earliest, latest, hspan, -, -, hpotential⟩ := hinv.potential stored hstored
      have hmin : (widen s.span r.now).1 ≤ earliest := by
        rw [hspan]
        exact min_le_left _ _
      have hrate := mul_le_mul_of_nonneg_left (sub_le_sub_left hmin r.now) l.rate_pos.le
      calc
        s.granted + available l (some stored) r.now
            ≤ s.granted + (stored.tokens + (r.now - stored.timestamp) * l.rate) :=
          add_le_add_right (available_le_refilled l hnow) _
        _ = s.granted + stored.tokens + l.rate * (r.now - stored.timestamp) := by ring
        _ ≤ l.capacity + l.rate * (stored.timestamp - earliest) +
              l.rate * (r.now - stored.timestamp) :=
          add_le_add_left hpotential _
        _ = l.capacity + l.rate * (r.now - earliest) := by ring
        _ ≤ l.capacity + l.rate * (r.now - (widen s.span r.now).1) :=
          add_le_add_right hrate _

theorem LimiterInv.step (hinv : LimiterInv l s) {r : Request} (hforward : Forward s r)
    {t : Limiter} (hstep : limiterStep l s r = some t) : LimiterInv l t := by
  obtain ⟨-, rfl⟩ | ⟨hcost, rfl⟩ := limiterStep_cases hstep
  · exact hinv.deny r.now
  · exact hinv.grant hforward hcost

end

/-- The latest call is not before the earliest. -/
theorem width_nonneg {l : Limits} {s : Limiter} {P : Limiter → Request → Prop}
    (hs : Driven (limiterStep l) P Limiter.start s) : 0 ≤ s.width := by
  refine hs.invariant (I := fun s => 0 ≤ s.width) le_rfl ?_
  intro s r t _ _ hstep
  obtain rfl := Option.some.inj hstep
  obtain ⟨hearliest, hlatest⟩ := widen_le s.span r.now
  exact sub_nonneg.mpr (hearliest.trans hlatest)

/-- In a run whose calls all meet the condition the rate is kept. -/
theorem rateKept_of_forward (l : Limits) (s : Limiter)
    (hs : Driven (limiterStep l) Forward Limiter.start s) : RateKept l s := by
  have hinv : LimiterInv l s :=
    hs.invariant (limiterInv_start l) fun _ _ _ hinv hforward hstep => hinv.step hforward hstep
  have htokens := tokens_mem_of_driven hs
  refine ⟨fun b hb => (htokens b hb).1, fun b hb => (htokens b hb).2, ?_⟩
  cases hbucket : s.bucket with
  | none =>
      rw [hinv.unused hbucket]
      have hrefill := mul_nonneg l.rate_pos.le (width_nonneg hs)
      linarith [l.capacity_pos]
  | some bucket =>
      obtain ⟨earliest, latest, hspan, -, hlatest, hpotential⟩ := hinv.potential bucket hbucket
      have hwidth : s.width = latest - earliest := by
        rw [Limiter.width, hspan]
      have hrate := mul_le_mul_of_nonneg_left
        (sub_le_sub_right hlatest earliest) l.rate_pos.le
      have hnonneg := (htokens bucket hbucket).1
      rw [hwidth]
      linarith

/-! ## A clock that goes back -/

def tenPerTen : Limits := ⟨10, 1, by decide, by decide⟩

/-- The third call comes with a clock that is five behind. -/
def backwardCalls : List Request :=
  [⟨0, 10, by decide⟩, ⟨10, 9, by decide⟩, ⟨5, 1, by decide⟩, ⟨10, 5, by decide⟩]

theorem backward_clock_refills_twice :
    ¬ ∀ (l : Limits) (s : Limiter),
      Driven (limiterStep l) (fun _ _ => True) Limiter.start s → RateKept l s := by
  have hrun : (drive (limiterStep tenPerTen) backwardCalls Limiter.start).map
      (fun s => (s.granted, s.width)) = some (25, 10) := by
    decide +kernel
  obtain ⟨s, hs, hvalues⟩ := Driven.exists_of_map_drive hrun
  obtain ⟨hgranted, hwidth⟩ := Prod.mk.inj hvalues
  intro hlaw
  have hle := (hlaw tenPerTen s hs).granted_le
  rw [hgranted, hwidth] at hle
  exact absurd hle (by decide +kernel)

/-- A call that is denied may be behind. -/
def forwardCalls : List Request :=
  [⟨0, 10, by decide⟩, ⟨10, 9, by decide⟩, ⟨5, 2, by decide⟩, ⟨12, 3, by decide⟩]

theorem forward_clock_rateKept :
    ∃ s, drive (limiterStep tenPerTen) forwardCalls Limiter.start = some s ∧
      RateKept tenPerTen s := by
  have hmeets : Meets (limiterStep tenPerTen) Forward forwardCalls Limiter.start := by
    decide +kernel
  have hsome : (drive (limiterStep tenPerTen) forwardCalls Limiter.start).isSome = true := by
    decide +kernel
  obtain ⟨s, hs, hrun⟩ := Driven.exists_of_meets hmeets hsome
  exact ⟨s, hs, rateKept_of_forward tenPerTen s hrun⟩

end RagflowMineru.Redis
