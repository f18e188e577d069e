import RagflowMineru.Library.Pruning
import RagflowMineru.MinerU.Boxes
import Mathlib.Tactic.Linarith

/-!
# Removing overlapping spans

Of two spans with nearly the same box the one with the lower score is removed;
then of two spans that overlap by more than 65 % of the smaller one the smaller one.
The second pass looks for its victim by the box, which names one span only since
the first pass has left no two spans with the same box.
-/

namespace RagflowMineru.MinerU

open RagflowMineru.Library

/-- A span: its box, its score, and the rest of its entries. -/
structure ScoredSpan (δ : Type*) where
  bbox : BBox ℚ
  score : ℚ
  data : δ
  deriving DecidableEq

variable {δ : Type*}

/-- The span to remove of two in `remove_overlaps_low_confidence_spans`. -/
def lowConfidenceSpan (span1 span2 : ScoredSpan δ) : Option (ScoredSpan δ) :=
  if 9 / 10 < calculateIou span1.bbox span2.bbox then
    if span1.score < span2.score then some span1 else some span2
  else none

/-- The span to remove for two in `remove_overlaps_min_spans`: the first one with the small box. -/
def minSpan (spans : List (ScoredSpan δ)) (span1 span2 : ScoredSpan δ) : Option (ScoredSpan δ) :=
  match getMinboxIfOverlapByRatio span1.bbox span2.bbox (13 / 20) with
  | none => none
  | some overlapBox => spans.find? fun span => span.bbox = overlapBox

section

variable [DecidableEq δ]

/-- `remove_overlaps_low_confidence_spans`. -/
def removeOverlapsLowConfidenceSpans (spans : List (ScoredSpan δ)) :
    List (ScoredSpan δ) × List (ScoredSpan δ) :=
  let droppedSpans := dropAll lowConfidenceSpan spans
  (removeAll spans droppedSpans, droppedSpans)

/-- `remove_overlaps_min_spans`. -/
def removeOverlapsMinSpans (spans : List (ScoredSpan δ)) :
    List (ScoredSpan δ) × List (ScoredSpan δ) :=
  let droppedSpans := dropAll (minSpan spans) spans
  (removeAll spans droppedSpans, droppedSpans)

/-- What the two passes over the spans of a page leave, and what each of them drops. -/
structure CleanedSpans (δ : Type*) where
  spans : List (ScoredSpan δ)
  droppedByConfidence : List (ScoredSpan δ)
  droppedBySpanOverlap : List (ScoredSpan δ)

/-- One pass after the other, as `page_model_info_to_page_info` calls them. -/
def removeOverlaps (spans : List (ScoredSpan δ)) : CleanedSpans δ :=
  let (spans, droppedByConfidence) := removeOverlapsLowConfidenceSpans spans
  let (spans, droppedBySpanOverlap) := removeOverlapsMinSpans spans
  ⟨spans, droppedByConfidence, droppedBySpanOverlap⟩

end

/-! ## Boxes that overlap -/

theorem BBox.intersectionArea_eq_some {a b : BBox ℚ} {i : ℚ} (h : a.intersectionArea b = some i) :
    a.x0 ≤ a.x1 ∧ a.y0 ≤ a.y1 ∧ b.x0 ≤ b.x1 ∧ b.y0 ≤ b.y1 := by
  rw [intersectionArea] at h
  split at h
  · cases h
  · next hnot =>
    obtain ⟨hx, hy⟩ := not_or.1 hnot
    obtain ⟨hxa, hxb⟩ := le_min_iff.1 (not_lt.1 hx)
    obtain ⟨hya, hyb⟩ := le_min_iff.1 (not_lt.1 hy)
    exact ⟨(le_max_left _ _).trans hxa, (le_max_left _ _).trans hya,
      (le_max_right _ _).trans hxb, (le_max_right _ _).trans hyb⟩

theorem BBox.area_nonneg {a : BBox ℚ} (hx : a.x0 ≤ a.x1) (hy : a.y0 ≤ a.y1) : 0 ≤ a.area :=
  mul_nonneg (sub_nonneg.2 hx) (sub_nonneg.2 hy)

/-- A box that is not empty overlaps with itself completely. -/
theorem calculateIou_self {a : BBox ℚ} (hx : a.x0 ≤ a.x1) (hy : a.y0 ≤ a.y1) (harea : a.area ≠ 0) :
    calculateIou a a = 1 := by
  have hself : a.intersectionArea a = some a.area := by
    simp only [BBox.intersectionArea, max_self, min_self, BBox.area]
    exact if_neg (not_or.2 ⟨not_lt.2 hx, not_lt.2 hy⟩)
  rw [calculateIou_of_some hself, if_neg (not_or.2 ⟨harea, harea⟩), add_sub_cancel_right]
  exact div_self harea

/-- Two boxes that overlap are not empty. -/
theorem calculateIou_self_of_overlap {a b : BBox ℚ} {ratio : ℚ} (hratio : 0 ≤ ratio)
    (h : ratio < calculateOverlapArea2MinboxAreaRatio a b) :
    calculateIou a a = 1 ∧ calculateIou b b = 1 := by
  rw [calculateOverlapArea2MinboxAreaRatio] at h
  cases hi : a.intersectionArea b with
  | none =>
    rw [overlapRatio_of_none hi] at h
    exact absurd h (not_lt.2 hratio)
  | some i =>
    rw [overlapRatio_of_some hi] at h
    obtain ⟨hax, hay, hbx, hby⟩ := BBox.intersectionArea_eq_some hi
    have hmin : min a.area b.area ≠ 0 := by
      intro hzero
      rw [if_pos hzero] at h
      exact absurd h (not_lt.2 hratio)
    have hpos : 0 < min a.area b.area :=
      lt_of_le_of_ne (le_min (BBox.area_nonneg hax hay) (BBox.area_nonneg hbx hby)) hmin.symm
    obtain ⟨ha, hb⟩ := lt_min_iff.1 hpos
    exact ⟨calculateIou_self hax hay ha.ne', calculateIou_self hbx hby hb.ne'⟩

/-! ## The two passes -/

theorem lowConfidenceSpan_takesOneOfTwo (spans : List (ScoredSpan δ)) :
    TakesOneOfTwo lowConfidenceSpan spans := by
  intro a _ b _ _ v hv
  rw [lowConfidenceSpan] at hv
  split at hv
  · split at hv
    · exact Or.inl (Option.some.inj hv).symm
    · exact Or.inr (Option.some.inj hv).symm
  · cases hv

theorem lowConfidenceSpan_eq_none_iff {a b : ScoredSpan δ} :
    lowConfidenceSpan a b = none ↔ calculateIou a.bbox b.bbox ≤ 9 / 10 := by
  rw [lowConfidenceSpan, ← not_lt]
  split
  · next h =>
    refine iff_of_false ?_ (not_not.2 h)
    split
    · exact Option.some_ne_none _
    · exact Option.some_ne_none _
  · next h => exact iff_of_true rfl h

theorem getMinboxIfOverlapByRatio_of_le {a b : BBox ℚ} {ratio : ℚ}
    (h : calculateOverlapArea2MinboxAreaRatio a b ≤ ratio) :
    getMinboxIfOverlapByRatio a b ratio = none :=
  if_neg (not_lt.2 h)

theorem getMinboxIfOverlapByRatio_of_lt {a b : BBox ℚ} {ratio : ℚ}
    (h : ratio < calculateOverlapArea2MinboxAreaRatio a b) :
    getMinboxIfOverlapByRatio a b ratio = if a.area ≤ b.area then some a else some b :=
  if_pos h

/-- What the first pass leaves. -/
def Distinguished (spans : List (ScoredSpan δ)) : Prop :=
  ∀ a ∈ spans, ∀ b ∈ spans, a ≠ b → calculateIou a.bbox b.bbox ≤ 9 / 10

section

variable {spans : List (ScoredSpan δ)} (h : Distinguished spans)

include h

/-- A box that overlaps with another one belongs to one span. -/
theorem Distinguished.eq_of_bbox_eq {a v : ScoredSpan δ} (ha : a ∈ spans) (hv : v ∈ spans)
    (hself : calculateIou a.bbox a.bbox = 1) (heq : v.bbox = a.bbox) : v = a := by
  by_contra hne
  have hle := h v hv a ha hne
  rw [heq, hself] at hle
  linarith

theorem Distinguished.find? {a : ScoredSpan δ} (ha : a ∈ spans)
    (hself : calculateIou a.bbox a.bbox = 1) :
    spans.find? (fun span => span.bbox = a.bbox) = some a := by
  cases hfind : spans.find? fun span => span.bbox = a.bbox with
  | none =>
    have hnone := List.find?_eq_none.1 hfind a ha
    exact absurd (decide_eq_true rfl) hnone
  | some v =>
    have hfound := List.find?_some hfind
    have hbbox : v.bbox = a.bbox := of_decide_eq_true hfound
    rw [h.eq_of_bbox_eq ha (List.mem_of_find?_eq_some hfind) hself hbbox]

/-- The victim of the second pass is one of the two spans. -/
theorem Distinguished.minSpan_cases {a b : ScoredSpan δ} (ha : a ∈ spans) (hb : b ∈ spans) :
    (calculateOverlapArea2MinboxAreaRatio a.bbox b.bbox ≤ 13 / 20 ∧ minSpan spans a b = none) ∨
      minSpan spans a b = some a ∨ minSpan spans a b = some b := by
  rcases le_or_gt (calculateOverlapArea2MinboxAreaRatio a.bbox b.bbox) (13 / 20) with hle | hlt
  · refine Or.inl ⟨hle, ?_⟩
    simp only [minSpan, getMinboxIfOverlapByRatio_of_le hle]
  · obtain ⟨hselfa, hselfb⟩ := calculateIou_self_of_overlap (by norm_num) hlt
    simp only [minSpan, getMinboxIfOverlapByRatio_of_lt hlt]
    split_ifs with hsmall
    · exact Or.inr (Or.inl (h.find? ha hselfa))
    · exact Or.inr (Or.inr (h.find? hb hselfb))

theorem Distinguished.minSpan_takesOneOfTwo : TakesOneOfTwo (minSpan spans) spans := by
  intro a ha b hb _ v hv
  rcases h.minSpan_cases ha hb with ⟨-, hnone⟩ | hsome | hsome
  · rw [hnone] at hv
    cases hv
  · rw [hsome] at hv
    exact Or.inl (Option.some.inj hv).symm
  · rw [hsome] at hv
    exact Or.inr (Option.some.inj hv).symm

theorem Distinguished.ratio_le {a b : ScoredSpan δ} (ha : a ∈ spans) (hb : b ∈ spans)
    (hnone : minSpan spans a b = none) :
    calculateOverlapArea2MinboxAreaRatio a.bbox b.bbox ≤ 13 / 20 := by
  rcases h.minSpan_cases ha hb with ⟨hle, -⟩ | hsome | hsome
  · exact hle
  · rw [hsome] at hnone
    cases hnone
  · rw [hsome] at hnone
    cases hnone

end

/-! ## Both passes -/

section

variable [DecidableEq δ] {spans : List (ScoredSpan δ)}

theorem removeOverlapsLowConfidenceSpans_distinguished (h : spans.Nodup) :
    Distinguished (removeOverlapsLowConfidenceSpans spans).1 := by
  intro a ha b hb hne
  exact lowConfidenceSpan_eq_none_iff.1
    (victim_eq_none_of_mem (lowConfidenceSpan_takesOneOfTwo spans) h ha hb hne)

/-- After both passes the spans are apart, some are left, and none is lost without a trace. -/
theorem removeOverlaps_spec (h : spans.Nodup) :
    (∀ a ∈ (removeOverlaps spans).spans, ∀ b ∈ (removeOverlaps spans).spans, a ≠ b →
      calculateIou a.bbox b.bbox ≤ 9 / 10 ∧
        calculateOverlapArea2MinboxAreaRatio a.bbox b.bbox ≤ 13 / 20) ∧
      (spans ≠ [] → (removeOverlaps spans).spans ≠ []) ∧
      ((removeOverlaps spans).spans ++ (removeOverlaps spans).droppedBySpanOverlap ++
        (removeOverlaps spans).droppedByConfidence).Perm spans := by
  have hdistinguished := removeOverlapsLowConfidenceSpans_distinguished h
  have hfirst := (dropAll_spec (lowConfidenceSpan_takesOneOfTwo spans)).1
  have hnodup : (removeOverlapsLowConfidenceSpans spans).1.Nodup := removeAll_nodup h
  have hsecond := (dropAll_spec hdistinguished.minSpan_takesOneOfTwo).1
  refine ⟨?_, ?_, ?_⟩
  · intro a ha b hb hne
    have ha' := ((mem_removeAll hnodup).1 ha).1
    have hb' := ((mem_removeAll hnodup).1 hb).1
    refine ⟨hdistinguished a ha' b hb' hne, hdistinguished.ratio_le ha' hb' ?_⟩
    exact victim_eq_none_of_mem hdistinguished.minSpan_takesOneOfTwo hnodup ha hb hne
  · exact fun hne => removeAll_ne_nil hnodup hsecond (removeAll_ne_nil h hfirst hne)
  · exact ((removeAll_append_perm hsecond).append_right _).trans (removeAll_append_perm hfirst)

/-- A line that was found twice, and another one. -/
private def lineSpans : List (ScoredSpan Unit) :=
  [⟨⟨0, 0, 10, 10⟩, 1 / 2, ()⟩, ⟨⟨0, 0, 10, 10⟩, 3 / 4, ()⟩, ⟨⟨20, 0, 30, 10⟩, 1, ()⟩]

theorem removeOverlaps_spec_lineSpans :
    (∀ a ∈ (removeOverlaps lineSpans).spans, ∀ b ∈ (removeOverlaps lineSpans).spans, a ≠ b →
      calculateIou a.bbox b.bbox ≤ 9 / 10 ∧
        calculateOverlapArea2MinboxAreaRatio a.bbox b.bbox ≤ 13 / 20) ∧
      (lineSpans ≠ [] → (removeOverlaps lineSpans).spans ≠ []) ∧
      ((removeOverlaps lineSpans).spans ++ (removeOverlaps lineSpans).droppedBySpanOverlap ++
        (removeOverlaps lineSpans).droppedByConfidence).Perm lineSpans :=
  removeOverlaps_spec (by norm_num [lineSpans])

end

end RagflowMineru.MinerU
