import RagflowMineru.Library.Narrowing
import Mathlib.Algebra.Order.Field.Rat
import Mathlib.Data.Rat.Cast.Order
import Mathlib.Tactic.Positivity

/-!
# The box that overlaps most

`find_overlapped` looks for the box that shares most of its area with a given one.  The boxes are
sorted by their tops, and a bisection first leaves out what lies above or below.  Bottoms are not
sorted: a box that ends above the given one sends the search past all boxes on its left, also past
those that reach farther down.
-/

namespace RagflowMineru.Deepdoc

open Library Narrowing

structure BoxEdges where
  x0 : ℚ
  x1 : ℚ
  top : ℚ
  bottom : ℚ
  x0_le : x0 ≤ x1
  top_le : top ≤ bottom

/-- `overlapped_area`; what it asserts holds for boxes. -/
def overlappedArea (a b : BoxEdges) (ratio : Bool) : ℚ :=
  if b.x0 > a.x1 ∨ b.x1 < a.x0 then 0
  else if b.bottom < a.top ∨ b.top > a.bottom then 0
  else
    let x0 := max b.x0 a.x0
    let x1 := min b.x1 a.x1
    let top := max b.top a.top
    let bottom := min b.bottom a.bottom
    let ov := if a.x1 - a.x0 ≠ 0 ∧ a.bottom - a.top ≠ 0 then (bottom - top) * (x1 - x0) else 0
    if ov > 0 ∧ ratio then ov / ((a.x1 - a.x0) * (a.bottom - a.top)) else ov

/-- The assertions of `overlapped_area`. -/
theorem overlap_wellFormed (a b : BoxEdges) (hx : ¬ (b.x0 > a.x1 ∨ b.x1 < a.x0))
    (hy : ¬ (b.bottom < a.top ∨ b.top > a.bottom)) :
    max b.x0 a.x0 ≤ min b.x1 a.x1 ∧ max b.top a.top ≤ min b.bottom a.bottom := by
  obtain ⟨hleft, hright⟩ := not_or.mp hx
  obtain ⟨hbelow, habove⟩ := not_or.mp hy
  exact ⟨max_le (le_min b.x0_le (not_lt.mp hleft)) (le_min (not_lt.mp hright) a.x0_le),
    max_le (le_min b.top_le (not_lt.mp habove)) (le_min (not_lt.mp hbelow) a.top_le)⟩

/-- Boxes that are sorted by their tops. -/
structure SortedBoxes where
  boxes : List BoxEdges
  sorted : boxes.Pairwise fun a b => a.top ≤ b.top

namespace SortedBoxes

variable (bxs : SortedBoxes) (box : BoxEdges)

/-- `box["bottom"] < bxs[i]["top"]` -/
def startsBelow (i : ℕ) : Bool := (bxs.boxes[i]?).any fun pv => box.bottom < pv.top

/-- `box["top"] > bxs[i]["bottom"]` -/
def endsAbove (i : ℕ) : Bool := (bxs.boxes[i]?).any fun pv => box.top > pv.bottom

def overlap (i : ℕ) : ℚ := (bxs.boxes[i]?).elim 0 fun b => overlappedArea b box true

/-- The places that `find_overlapped` compares: the range of the bisection, or all of them, with at
most one place less at each end. -/
def candidates (naive : Bool) : List ℕ :=
  let n := bxs.boxes.length
  let (s, e, ii) :=
    if naive then (0, n, 0) else narrow (bxs.startsBelow box) (bxs.endsAbove box) 0 n 0
  let s' := if s < ii ∧ bxs.endsAbove box s then s + 1 else s
  let e' := if e - 1 > ii ∧ bxs.startsBelow box (e - 1) then e - 1 else e
  List.range' s' (e' - s')

def findOverlapped (naive : Bool) : Option ℕ :=
  if bxs.boxes = [] then none else (firstBest (bxs.overlap box) (bxs.candidates box naive)).1

/-- The bisection finds a box if the full scan does, and one with the same, greatest ratio. -/
def Agrees : Prop :=
  ((bxs.findOverlapped box false).isSome ↔ (bxs.findOverlapped box true).isSome) ∧
    ∀ i j, bxs.findOverlapped box false = some i → bxs.findOverlapped box true = some j →
      bxs.overlap box i = bxs.overlap box j ∧ ∀ k, bxs.overlap box k ≤ bxs.overlap box i

/-- Nothing overlaps, or the search for one of the boxes that overlap most meets a box at the
height of the given one before any that stands behind and ends above. -/
def SearchKeepsBest : Prop :=
  (∀ i, bxs.overlap box i ≤ 0) ∨
    ∃ t, 0 < bxs.overlap box t ∧ (∀ k, bxs.overlap box k ≤ bxs.overlap box t) ∧
      Kept (bxs.startsBelow box) (bxs.endsAbove box) t 0 bxs.boxes.length

variable {bxs box} {i : ℕ} {naive : Bool}

/-- What overlaps stands in the list, at the height of the box. -/
theorem level_of_overlap (h : 0 < bxs.overlap box i) :
    i < bxs.boxes.length ∧ bxs.startsBelow box i = false ∧ bxs.endsAbove box i = false := by
  rw [overlap] at h
  rw [startsBelow, endsAbove]
  rcases hget : bxs.boxes[i]? with - | b
  · rw [hget] at h
    exact absurd h (lt_irrefl 0)
  · rw [hget] at h
    obtain ⟨hlt, -⟩ := List.getElem?_eq_some_iff.mp hget
    refine ⟨hlt, ?_⟩
    by_contra hlevel
    have hy : box.bottom < b.top ∨ box.top > b.bottom := by
      by_contra hnot
      apply hlevel
      obtain ⟨hbelow, habove⟩ := not_or.mp hnot
      exact ⟨decide_eq_false hbelow, decide_eq_false habove⟩
    have hzero : overlappedArea b box true = 0 := by
      rw [overlappedArea]
      split_ifs <;> rfl
    exact absurd h (by rw [Option.elim_some, hzero]; exact lt_irrefl 0)

/-- Nothing before a box at the height of the given one starts below it. -/
theorem startsBelow_eq_false_of_le {t m : ℕ} (ht : t < bxs.boxes.length)
    (hlevel : bxs.startsBelow box t = false) (hm : m ≤ t) : bxs.startsBelow box m = false := by
  have hmlen := hm.trans_lt ht
  rw [startsBelow, List.getElem?_eq_getElem ht, Option.any_some, decide_eq_false_iff_not,
    not_lt] at hlevel
  rw [startsBelow, List.getElem?_eq_getElem hmlen, Option.any_some, decide_eq_false_iff_not,
    not_lt]
  rcases Nat.eq_or_lt_of_le hm with rfl | hlt
  · exact hlevel
  · exact (List.pairwise_iff_getElem.mp bxs.sorted m t hmlen ht hlt).trans hlevel

/-- The ends that are left out do not overlap. -/
theorem mem_candidates_iff (h : 0 < bxs.overlap box i) :
    i ∈ bxs.candidates box naive ↔
      naive = true ∨ Kept (bxs.startsBelow box) (bxs.endsAbove box) i 0 bxs.boxes.length := by
  obtain ⟨hlen, hbelow, habove⟩ := level_of_overlap h
  have htrim : ∀ s e ii : ℕ,
      (i ∈ List.range' (if s < ii ∧ bxs.endsAbove box s then s + 1 else s)
        ((if e - 1 > ii ∧ bxs.startsBelow box (e - 1) then e - 1 else e) -
          (if s < ii ∧ bxs.endsAbove box s then s + 1 else s)) ↔ s ≤ i ∧ i < e) := by
    intro s e ii
    have hs : s = i → ¬ (s < ii ∧ bxs.endsAbove box s = true) := by
      rintro rfl ⟨-, hend⟩
      rw [habove] at hend
      exact nomatch hend
    have he : e - 1 = i → ¬ (e - 1 > ii ∧ bxs.startsBelow box (e - 1) = true) := by
      rintro heq ⟨-, hstart⟩
      rw [heq, hbelow] at hstart
      exact nomatch hstart
    rw [List.mem_range'_1]
    split_ifs <;> grind
  rw [candidates]
  dsimp only
  cases naive with
  | true =>
      refine (htrim 0 _ 0).trans (iff_of_true ⟨Nat.zero_le i, hlen⟩ (.inl rfl))
  | false =>
      rw [or_iff_right Bool.false_ne_true]
      exact (htrim _ _ _).trans (mem_narrow_iff
        (fun m hm => startsBelow_eq_false_of_le hlen hbelow hm) habove (Nat.zero_le i) hlen)

theorem findOverlapped_eq :
    bxs.findOverlapped box naive = (firstBest (bxs.overlap box) (bxs.candidates box naive)).1 := by
  rw [findOverlapped]
  split_ifs with hnil
  · refine (firstBest_eq_none_iff.mpr fun i _ => ?_).symm
    rw [overlap, hnil, List.getElem?_nil]
    exact le_rfl
  · rfl

/-- The full scan finds a greatest overlap if there is any. -/
theorem exists_best (h : 0 < bxs.overlap box i) :
    ∃ j, bxs.findOverlapped box true = some j ∧ 0 < bxs.overlap box j ∧
      ∀ k, bxs.overlap box k ≤ bxs.overlap box j := by
  have hmem : ∀ {k}, 0 < bxs.overlap box k → k ∈ bxs.candidates box true := fun hk =>
    (mem_candidates_iff hk).mpr (.inl rfl)
  cases hfound : bxs.findOverlapped box true with
  | none =>
      rw [findOverlapped_eq, firstBest_eq_none_iff] at hfound
      exact absurd (hfound i (hmem h)) (not_le.mpr h)
  | some j =>
      rw [findOverlapped_eq] at hfound
      obtain ⟨-, hpos, hbest⟩ := firstBest_eq_some hfound
      refine ⟨j, rfl, hpos, fun k => ?_⟩
      by_cases hk : 0 < bxs.overlap box k
      · exact hbest k (hmem hk)
      · exact (not_lt.mp hk).trans hpos.le

/-- The bisection agrees with the full scan exactly when it keeps a box that overlaps most. -/
theorem agrees_iff (bxs : SortedBoxes) (box : BoxEdges) :
    bxs.Agrees box ↔ bxs.SearchKeepsBest box := by
  by_cases hany : ∃ i, 0 < bxs.overlap box i
  · obtain ⟨i, hi⟩ := hany
    obtain ⟨best, hbest, hpos, hmax⟩ := exists_best hi
    constructor
    · rintro ⟨hsome, hsame⟩
      rw [hbest] at hsome
      obtain ⟨t, ht⟩ := Option.isSome_iff_exists.mp (hsome.mpr rfl)
      obtain ⟨hequal, hgreatest⟩ := hsame t best ht hbest
      rw [findOverlapped_eq] at ht
      obtain ⟨hmem, htpos, -⟩ := firstBest_eq_some ht
      exact .inr ⟨t, htpos, hgreatest,
        ((mem_candidates_iff htpos).mp hmem).resolve_left Bool.false_ne_true⟩
    · rintro (hnone | ⟨t, ht, hgreatest, hkept⟩)
      · exact absurd (hnone i) (not_le.mpr hi)
      · have hmem : t ∈ bxs.candidates box false := (mem_candidates_iff ht).mpr (.inr hkept)
        cases hfound : bxs.findOverlapped box false with
        | none =>
            rw [findOverlapped_eq, firstBest_eq_none_iff] at hfound
            exact absurd (hfound t hmem) (not_le.mpr ht)
        | some j =>
            rw [Agrees, hfound, hbest]
            refine ⟨iff_of_true rfl rfl, fun i' j' hi' hj' => ?_⟩
            obtain rfl := Option.some.inj hi'
            obtain rfl := Option.some.inj hj'
            rw [findOverlapped_eq] at hfound
            obtain ⟨-, -, hbetter⟩ := firstBest_eq_some hfound
            have hle : ∀ k, bxs.overlap box k ≤ bxs.overlap box j := fun k =>
              (hgreatest k).trans (hbetter t hmem)
            exact ⟨le_antisymm (hmax j) (hle best), hle⟩
  · have hnone : ∀ i, bxs.overlap box i ≤ 0 := fun i =>
      not_lt.mp fun hi => hany ⟨i, hi⟩
    have hempty : ∀ naive, bxs.findOverlapped box naive = none := by
      intro naive
      rw [findOverlapped_eq]
      exact firstBest_eq_none_iff.mpr fun i _ => hnone i
    refine iff_of_true ⟨by rw [hempty, hempty], fun i j hi => ?_⟩ (.inl hnone)
    rw [hempty] at hi
    exact nomatch hi

theorem zero_le_ten : (0 : ℚ) ≤ 10 := by decide +kernel

/-- A tall box, and a low one behind it. -/
def tallAndLow : SortedBoxes where
  boxes := [⟨0, 10, 0, 100, zero_le_ten, by decide +kernel⟩,
    ⟨0, 10, 10, 12, zero_le_ten, by decide +kernel⟩]
  sorted := List.pairwise_pair.mpr (by decide +kernel)

def inLowerHalf : BoxEdges := ⟨4, 5, 50, 51, by decide +kernel, by decide +kernel⟩

/-- The tall box is not found in its lower half. -/
theorem not_agrees_tallAndLow :
    ¬ tallAndLow.Agrees inLowerHalf := by
  rintro ⟨hsome, -⟩
  have hpos : 0 < tallAndLow.overlap inLowerHalf 0 := by
    decide +kernel
  obtain ⟨j, hj, -⟩ := exists_best hpos
  rw [hj] at hsome
  have hnone : tallAndLow.findOverlapped inLowerHalf false = none := by
    have hcandidates : tallAndLow.candidates inLowerHalf false = [] := by
      have hbelow : tallAndLow.startsBelow inLowerHalf 1 = false := by decide +kernel
      have habove : tallAndLow.endsAbove inLowerHalf 1 = true := by decide +kernel
      have hlength : tallAndLow.boxes.length = 2 := rfl
      simp [candidates, narrow, hlength, hbelow, habove]
    rw [findOverlapped_eq, hcandidates]
    rfl
  rw [hnone] at hsome
  exact absurd (hsome.mpr rfl) Bool.false_ne_true

end SortedBoxes

end RagflowMineru.Deepdoc
