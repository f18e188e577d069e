import Mathlib.Algebra.Order.Group.Defs
import Mathlib.Algebra.Order.Group.Unbundled.Basic
import Mathlib.Data.List.MinMax
import Mathlib.Order.Lattice
import Mathlib.Tactic.Abel

/-!
# Quarter turns of a frame

A frame with a width and a height is turned clockwise by a multiple of a quarter, with the points
in it.  Turns follow each other like numbers modulo four.  A rectangle is turned with its
corners, whose order does not matter.
-/

namespace RagflowMineru.Library

inductive QuarterTurn where
  | deg0 | deg90 | deg180 | deg270
  deriving DecidableEq

structure Point (K : Type*) where
  x : K
  y : K
  deriving DecidableEq

/-- The size of a frame. -/
structure Frame (K : Type*) where
  width : K
  height : K

namespace QuarterTurn

variable {K : Type*}

/-- One turn behind the other. -/
def followedBy : QuarterTurn → QuarterTurn → QuarterTurn
  | deg0, t => t
  | deg90, deg0 => deg90
  | deg90, deg90 => deg180
  | deg90, deg180 => deg270
  | deg90, deg270 => deg0
  | deg180, deg0 => deg180
  | deg180, deg90 => deg270
  | deg180, deg180 => deg0
  | deg180, deg270 => deg90
  | deg270, deg0 => deg270
  | deg270, deg90 => deg0
  | deg270, deg180 => deg90
  | deg270, deg270 => deg180

/-- The frame after the turn. -/
def frame (t : QuarterTurn) (f : Frame K) : Frame K :=
  match t with
  | deg0 | deg180 => f
  | deg90 | deg270 => ⟨f.height, f.width⟩

section Points

variable [AddCommGroup K]

/-- The clockwise turn of a frame. -/
def turn (t : QuarterTurn) (f : Frame K) (p : Point K) : Point K :=
  match t with
  | deg0 => p
  | deg90 => ⟨f.height - p.y, p.x⟩
  | deg180 => ⟨f.width - p.x, f.height - p.y⟩
  | deg270 => ⟨p.y, f.width - p.x⟩

theorem turn_turn (s t : QuarterTurn) (f : Frame K) (p : Point K) :
    t.turn (s.frame f) (s.turn f p) = (s.followedBy t).turn f p := by
  cases s <;> cases t <;> simp [turn, frame, followedBy]

end Points

end QuarterTurn

/-! ## Rectangles -/

@[ext]
structure Rect (K : Type*) [LE K] where
  x0 : K
  top : K
  x1 : K
  bottom : K
  left_le : x0 ≤ x1
  top_le : top ≤ bottom

namespace Rect

variable {K : Type*}

def corners [LE K] (r : Rect K) : List (Point K) :=
  [⟨r.x0, r.top⟩, ⟨r.x1, r.top⟩, ⟨r.x1, r.bottom⟩, ⟨r.x0, r.bottom⟩]

section Bounding

variable [LinearOrder K]

def Contains (r : Rect K) (p : Point K) : Prop :=
  (r.x0 ≤ p.x ∧ p.x ≤ r.x1) ∧ r.top ≤ p.y ∧ p.y ≤ r.bottom

theorem contains_of_mem_corners {r : Rect K} {p : Point K} (h : p ∈ r.corners) : r.Contains p := by
  simp only [corners, List.mem_cons, List.not_mem_nil, or_false] at h
  rcases h with rfl | rfl | rfl | rfl
  · exact ⟨⟨le_rfl, r.left_le⟩, le_rfl, r.top_le⟩
  · exact ⟨⟨r.left_le, le_rfl⟩, le_rfl, r.top_le⟩
  · exact ⟨⟨r.left_le, le_rfl⟩, r.top_le, le_rfl⟩
  · exact ⟨⟨le_rfl, r.left_le⟩, r.top_le, le_rfl⟩

/-- The least rectangle around points. -/
def bounding (points : List (Point K)) (hne : points ≠ []) : Rect K where
  x0 := (points.map Point.x).min (by simpa using hne)
  top := (points.map Point.y).min (by simpa using hne)
  x1 := (points.map Point.x).max (by simpa using hne)
  bottom := (points.map Point.y).max (by simpa using hne)
  left_le := List.min_le_of_mem (List.max_mem _)
  top_le := List.min_le_of_mem (List.max_mem _)

theorem bounding_eq {points : List (Point K)} {hne : points ≠ []} {r : Rect K}
    (hin : ∀ p ∈ points, r.Contains p)
    (hx0 : ∃ p ∈ points, p.x = r.x0) (hx1 : ∃ p ∈ points, p.x = r.x1)
    (htop : ∃ p ∈ points, p.y = r.top) (hbottom : ∃ p ∈ points, p.y = r.bottom) :
    bounding points hne = r := by
  apply Rect.ext
  · exact (List.min_eq_iff _).mpr
      ⟨List.mem_map.mpr hx0, List.forall_mem_map.mpr fun p hp => (hin p hp).1.1⟩
  · exact (List.min_eq_iff _).mpr
      ⟨List.mem_map.mpr htop, List.forall_mem_map.mpr fun p hp => (hin p hp).2.1⟩
  · exact (List.max_eq_iff _).mpr
      ⟨List.mem_map.mpr hx1, List.forall_mem_map.mpr fun p hp => (hin p hp).1.2⟩
  · exact (List.max_eq_iff _).mpr
      ⟨List.mem_map.mpr hbottom, List.forall_mem_map.mpr fun p hp => (hin p hp).2.2⟩

end Bounding

section Turning

variable [AddCommGroup K] [LinearOrder K] [IsOrderedAddMonoid K]

/-- The rectangle after the clockwise turn of a frame. -/
def turn (t : QuarterTurn) (f : Frame K) (r : Rect K) : Rect K :=
  match t with
  | .deg0 => r
  | .deg90 => ⟨f.height - r.bottom, r.x0, f.height - r.top, r.x1,
      sub_le_sub_left r.top_le _, r.left_le⟩
  | .deg180 => ⟨f.width - r.x1, f.height - r.bottom, f.width - r.x0, f.height - r.top,
      sub_le_sub_left r.left_le _, sub_le_sub_left r.top_le _⟩
  | .deg270 => ⟨r.top, f.width - r.x1, r.bottom, f.width - r.x0,
      r.top_le, sub_le_sub_left r.left_le _⟩

theorem Contains.turn {r : Rect K} {p : Point K} (h : r.Contains p) (t : QuarterTurn)
    (f : Frame K) : (r.turn t f).Contains (t.turn f p) := by
  obtain ⟨⟨hx0, hx1⟩, htop, hbottom⟩ := h
  have hsub : ∀ {a b : K} (c : K), a ≤ b → c - b ≤ c - a := fun c h => sub_le_sub_left h c
  cases t with
  | deg0 => exact ⟨⟨hx0, hx1⟩, htop, hbottom⟩
  | deg90 => exact ⟨⟨hsub _ hbottom, hsub _ htop⟩, hx0, hx1⟩
  | deg180 => exact ⟨⟨hsub _ hx1, hsub _ hx0⟩, hsub _ hbottom, hsub _ htop⟩
  | deg270 => exact ⟨⟨htop, hbottom⟩, hsub _ hx1, hsub _ hx0⟩

/-- The turned corners are the corners of the turned rectangle, in whatever order. -/
theorem bounding_turn_corners {t : QuarterTurn} {f : Frame K} {r : Rect K}
    {points : List (Point K)} {hne : points ≠ []}
    (hperm : points.Perm (r.corners.map (t.turn f))) : bounding points hne = r.turn t f := by
  apply bounding_eq
  · intro p hp
    obtain ⟨c, hc, rfl⟩ := List.mem_map.mp (hperm.mem_iff.mp hp)
    exact (contains_of_mem_corners hc).turn t f
  all_goals
    simp only [hperm.mem_iff, corners, List.map_cons, List.map_nil, List.mem_cons,
      List.not_mem_nil, or_false, exists_eq_or_imp, exists_eq_left]
    cases t <;> simp [turn, QuarterTurn.turn]

end Turning

end Rect

end RagflowMineru.Library
