import Mathlib.Data.List.Basic
import Mathlib.Order.BoundedOrder.Basic
import Mathlib.Order.Lattice
import Mathlib.Order.MinMax

/-!
# Marks of time

Whoever reads a source again and again keeps a mark, the latest time that was read, and asks
next time for what is newer.  Without a mark everything is asked for.  A mark that is raised
batch by batch stays below what is still to come when the batches are in order.
-/

namespace RagflowMineru.Library

variable {α τ : Type*} [LinearOrder τ]

/-- The time is newer than the mark. -/
def Above (mark : Option τ) (t : τ) : Prop := ∀ m, mark = some m → m < t

/-- The mark is no newer than the time. -/
def Within (mark : Option τ) (t : τ) : Prop := ∀ m, mark = some m → m ≤ t

/-- `COALESCE(GREATEST(mark, x), x)` -/
def raiseMark (mark : Option τ) (x : τ) : Option τ := some (mark.elim x fun m => max m x)

/-- Nothing in a batch is newer than what comes in later batches. -/
def InOrder (time : α → τ) (batches : List (List α)) : Prop :=
  batches.Pairwise fun b c => ∀ x ∈ b, ∀ y ∈ c, time x ≤ time y

theorem above_none (t : τ) : Above none t := by
  rintro _ ⟨⟩

theorem above_some {m t : τ} : Above (some m) t ↔ m < t := by
  constructor
  · exact fun h => h m rfl
  · rintro h _ ⟨⟩
    exact h

theorem above_raiseMark {mark : Option τ} {x t : τ} :
    Above (raiseMark mark x) t ↔ Above mark t ∧ x < t := by
  cases mark with
  | none => exact above_some.trans (and_iff_right (above_none t)).symm
  | some m => exact above_some.trans (max_lt_iff.trans (and_congr_left' above_some.symm))

theorem within_none (t : τ) : Within none t := by
  rintro _ ⟨⟩

theorem within_some {m t : τ} : Within (some m) t ↔ m ≤ t := by
  constructor
  · exact fun h => h m rfl
  · rintro h _ ⟨⟩
    exact h

theorem Within.mono {mark : Option τ} {t u : τ} (h : Within mark t) (htu : t ≤ u) :
    Within mark u := fun m hm => (h m hm).trans htu

theorem Within.above {mark : Option τ} {t u : τ} (h : Within mark t) (htu : t < u) :
    Above mark u := fun m hm => (h m hm).trans_lt htu

theorem within_raiseMark {mark : Option τ} {x t : τ} :
    Within (raiseMark mark x) t ↔ Within mark t ∧ x ≤ t := by
  cases mark with
  | none => exact within_some.trans (and_iff_right (within_none t)).symm
  | some m => exact within_some.trans (max_le_iff.trans (and_congr_left' within_some.symm))

section Latest

variable [OrderBot τ] (time : α → τ)

/-- The latest time in a batch. -/
def latest (b : List α) : τ := b.foldr (fun x t => max (time x) t) ⊥

theorem latest_le_iff {b : List α} {t : τ} : latest time b ≤ t ↔ ∀ x ∈ b, time x ≤ t := by
  induction b with
  | nil => exact ⟨fun _ _ hx => absurd hx List.not_mem_nil, fun _ => bot_le⟩
  | cons x b ih =>
      rw [List.forall_mem_cons, ← ih]
      exact sup_le_iff

theorem le_latest {b : List α} {x : α} (hx : x ∈ b) : time x ≤ latest time b :=
  (latest_le_iff time).mp le_rfl x hx

/-- In order, no batch that is still to come has something before the latest time of this one. -/
theorem InOrder.latest_le {time : α → τ} {b : List α} {batches : List (List α)}
    (h : InOrder time (b :: batches)) {x : α} (hx : x ∈ batches.flatten) :
    latest time b ≤ time x := by
  obtain ⟨c, hc, hx⟩ := List.mem_flatten.mp hx
  exact (latest_le_iff time).mpr fun y hy => (List.pairwise_cons.mp h).1 c hc y hy x hx

/-- The latest time is that of something, unless there is nothing. -/
theorem exists_latest {b : List α} (hb : b ≠ []) : ∃ x ∈ b, time x = latest time b := by
  induction b with
  | nil => exact absurd rfl hb
  | cons x b ih =>
      rcases le_total (latest time b) (time x) with hle | hle
      · exact ⟨x, List.mem_cons_self, (max_eq_left hle).symm⟩
      · by_cases hnil : b = []
        · subst hnil
          exact ⟨x, List.mem_cons_self, (max_eq_left bot_le).symm⟩
        · obtain ⟨y, hy, hyt⟩ := ih hnil
          exact ⟨y, List.mem_cons_of_mem x hy, hyt.trans (max_eq_right hle).symm⟩

end Latest

theorem InOrder.tail {time : α → τ} {b : List α} {batches : List (List α)}
    (h : InOrder time (b :: batches)) : InOrder time batches :=
  (List.pairwise_cons.mp h).2

end RagflowMineru.Library
