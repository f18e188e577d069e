import RagflowMineru.MinerU.ContentList

/-!
# Boxes

The part of `boxbase` that compares boxes.  Boxes are ordered by containment;
the smallest box around two boxes is their join.  Quotients of areas are exact;
page coordinates are small enough for doubles to compare them alike.  The square
root of a distance is whatever `sqrt` rounds it to.
-/

namespace RagflowMineru.MinerU

namespace BBox

section Containment

variable {α : Type*} [LinearOrder α]

/-- `is_in(a, b)`. -/
instance : LE (BBox α) := ⟨fun a b => b.x0 ≤ a.x0 ∧ b.y0 ≤ a.y0 ∧ a.x1 ≤ b.x1 ∧ a.y1 ≤ b.y1⟩

theorem le_iff {a b : BBox α} :
    a ≤ b ↔ b.x0 ≤ a.x0 ∧ b.y0 ≤ a.y0 ∧ a.x1 ≤ b.x1 ∧ a.y1 ≤ b.y1 :=
  Iff.rfl

instance : DecidableLE (BBox α) := fun _ _ => decidable_of_iff _ le_iff.symm

instance : PartialOrder (BBox α) where
  le_refl _ := ⟨le_rfl, le_rfl, le_rfl, le_rfl⟩
  le_trans _ _ _ h h' :=
    ⟨h'.1.trans h.1, h'.2.1.trans h.2.1, h.2.2.1.trans h'.2.2.1, h.2.2.2.trans h'.2.2.2⟩
  le_antisymm := by
    rintro ⟨x0, y0, x1, y1⟩ ⟨x0', y0', x1', y1'⟩ h h'
    obtain rfl := le_antisymm h'.1 h.1
    obtain rfl := le_antisymm h'.2.1 h.2.1
    obtain rfl := le_antisymm h.2.2.1 h'.2.2.1
    obtain rfl := le_antisymm h.2.2.2 h'.2.2.2
    rfl

/-- The smallest box around two boxes. -/
def hull (a b : BBox α) : BBox α where
  x0 := min a.x0 b.x0
  y0 := min a.y0 b.y0
  x1 := max a.x1 b.x1
  y1 := max a.y1 b.y1

instance : SemilatticeSup (BBox α) where
  sup := hull
  le_sup_left _ _ := ⟨min_le_left _ _, min_le_left _ _, le_max_left _ _, le_max_left _ _⟩
  le_sup_right _ _ := ⟨min_le_right _ _, min_le_right _ _, le_max_right _ _, le_max_right _ _⟩
  sup_le _ _ _ h h' :=
    ⟨le_min h.1 h'.1, le_min h.2.1 h'.2.1, max_le h.2.2.1 h'.2.2.1, max_le h.2.2.2 h'.2.2.2⟩

end Containment

/-- `(x1 - x0) * (y1 - y0)`. -/
def area (b : BBox ℚ) : ℚ := (b.x1 - b.x0) * (b.y1 - b.y0)

/-- The area of the intersection; `none` when the boxes lie apart. -/
def intersectionArea (a b : BBox ℚ) : Option ℚ :=
  let xLeft := max a.x0 b.x0
  let yTop := max a.y0 b.y0
  let xRight := min a.x1 b.x1
  let yBottom := min a.y1 b.y1
  if xRight < xLeft ∨ yBottom < yTop then none
  else some ((xRight - xLeft) * (yBottom - yTop))

end BBox

/-- The overlap divided by an area, `0` for boxes that lie apart and for an empty area. -/
def overlapRatio (bbox1 bbox2 : BBox ℚ) (area : ℚ) : ℚ :=
  match bbox1.intersectionArea bbox2 with
  | none => 0
  | some intersection => if area = 0 then 0 else intersection / area

section

variable {bbox1 bbox2 : BBox ℚ}

theorem overlapRatio_of_none (h : bbox1.intersectionArea bbox2 = none) (area : ℚ) :
    overlapRatio bbox1 bbox2 area = 0 := by
  delta overlapRatio
  rw [h]

theorem overlapRatio_of_some {intersection : ℚ}
    (h : bbox1.intersectionArea bbox2 = some intersection) (area : ℚ) :
    overlapRatio bbox1 bbox2 area = if area = 0 then 0 else intersection / area := by
  delta overlapRatio
  rw [h]

end

/-- `calculate_overlap_area_2_minbox_area_ratio`. -/
def calculateOverlapArea2MinboxAreaRatio (bbox1 bbox2 : BBox ℚ) : ℚ :=
  overlapRatio bbox1 bbox2 (min bbox1.area bbox2.area)

/-- `calculate_overlap_area_in_bbox1_area_ratio`. -/
def calculateOverlapAreaInBbox1AreaRatio (bbox1 bbox2 : BBox ℚ) : ℚ :=
  overlapRatio bbox1 bbox2 bbox1.area

/-- `calculate_iou`. -/
def calculateIou (bbox1 bbox2 : BBox ℚ) : ℚ :=
  match bbox1.intersectionArea bbox2 with
  | none => 0
  | some intersection =>
      if bbox1.area = 0 ∨ bbox2.area = 0 then 0
      else intersection / (bbox1.area + bbox2.area - intersection)

theorem calculateIou_of_some {bbox1 bbox2 : BBox ℚ} {intersection : ℚ}
    (h : bbox1.intersectionArea bbox2 = some intersection) :
    calculateIou bbox1 bbox2 =
      if bbox1.area = 0 ∨ bbox2.area = 0 then 0
      else intersection / (bbox1.area + bbox2.area - intersection) := by
  delta calculateIou
  rw [h]

section Distances

variable (sqrt : ℚ → ℚ)

/-- `bbox_relative_pos`: whether the first box is left of, right of, below or above the second. -/
def bboxRelativePos (bbox1 bbox2 : BBox ℚ) : Bool × Bool × Bool × Bool :=
  (bbox2.x1 < bbox1.x0, bbox1.x1 < bbox2.x0, bbox2.y1 < bbox1.y0, bbox1.y1 < bbox2.y0)

/-- `dist`. -/
def pointDistance (p q : ℚ × ℚ) : ℚ := sqrt ((p.1 - q.1) ^ 2 + (p.2 - q.2) ^ 2)

/-- `bbox_distance`. -/
def bboxDistance (bbox1 bbox2 : BBox ℚ) : ℚ :=
  let (left, right, bottom, top) := bboxRelativePos bbox1 bbox2
  if top && left then pointDistance sqrt (bbox1.x0, bbox1.y1) (bbox2.x1, bbox2.y0)
  else if left && bottom then pointDistance sqrt (bbox1.x0, bbox1.y0) (bbox2.x1, bbox2.y1)
  else if bottom && right then pointDistance sqrt (bbox1.x1, bbox1.y0) (bbox2.x0, bbox2.y1)
  else if right && top then pointDistance sqrt (bbox1.x1, bbox1.y1) (bbox2.x0, bbox2.y0)
  else if left then bbox1.x0 - bbox2.x1
  else if right then bbox2.x0 - bbox1.x1
  else if bottom then bbox1.y0 - bbox2.y1
  else if top then bbox2.y0 - bbox1.y1
  else 0

/-- `bbox_center_distance`. -/
def bboxCenterDistance (bbox1 bbox2 : BBox ℚ) : ℚ :=
  pointDistance sqrt ((bbox1.x0 + bbox1.x1) / 2, (bbox1.y0 + bbox1.y1) / 2)
    ((bbox2.x0 + bbox2.x1) / 2, (bbox2.y0 + bbox2.y1) / 2)

end Distances

/-- `get_minbox_if_overlap_by_ratio`. -/
def getMinboxIfOverlapByRatio (bbox1 bbox2 : BBox ℚ) (ratio : ℚ) : Option (BBox ℚ) :=
  if ratio < calculateOverlapArea2MinboxAreaRatio bbox1 bbox2 then
    if bbox1.area ≤ bbox2.area then some bbox1 else some bbox2
  else none

end RagflowMineru.MinerU
