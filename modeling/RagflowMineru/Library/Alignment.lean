import Mathlib.Data.List.Basic
import Mathlib.Order.Monotone.Basic

/-!
# Two ways to cut one text into parts

A text is cut into parts in two ways.  Some parts are the same in both and stand at the same
place; the gaps are the stretches between them.  Two cursors that are moved on behind one
another find these parts one after the other, and the gaps with them.
-/

namespace RagflowMineru.Library

variable {α : Type*}

/-- Where the part `k` begins. -/
def offset (xs : List (List α)) (k : ℕ) : ℕ := (xs.take k).flatten.length

section Offset

variable {xs : List (List α)} {i j k : ℕ} {t : List α}

@[simp] theorem offset_zero (xs : List (List α)) : offset xs 0 = 0 := rfl

theorem offset_of_length_le (h : xs.length ≤ k) : offset xs k = xs.flatten.length := by
  rw [offset, List.take_of_length_le h]

theorem offset_succ (h : xs[k]? = some t) : offset xs (k + 1) = offset xs k + t.length := by
  rw [offset, List.take_add_one, h, List.flatten_append, List.length_append, ← offset,
    Option.toList_some, List.flatten_singleton]

theorem offset_le_succ (xs : List (List α)) (k : ℕ) : offset xs k ≤ offset xs (k + 1) := by
  cases h : xs[k]? with
  | none =>
    have hle : xs.length ≤ k := List.getElem?_eq_none_iff.mp h
    rw [offset_of_length_le hle, offset_of_length_le (hle.trans (Nat.le_succ k))]
  | some t =>
    rw [offset_succ h]
    exact Nat.le_add_right _ _

theorem offset_mono (xs : List (List α)) (h : i ≤ j) : offset xs i ≤ offset xs j :=
  monotone_nat_of_le_succ (offset_le_succ xs) h

theorem offset_le_length (xs : List (List α)) (k : ℕ) : offset xs k ≤ xs.flatten.length := by
  rcases Nat.le_total xs.length k with h | h
  · exact (offset_of_length_le h).le
  · rw [← offset_of_length_le (le_refl xs.length)]
    exact offset_mono xs h

theorem length_pos_of_getElem? (hxs : [] ∉ xs) (h : xs[k]? = some t) : 0 < t.length := by
  refine List.length_pos_iff.mpr ?_
  rintro rfl
  exact hxs (List.mem_of_getElem? h)

/-- Parts that are not empty begin one behind the other. -/
theorem offset_lt (hxs : [] ∉ xs) (hi : i < xs.length) (h : i < j) :
    offset xs i < offset xs j := by
  have hi : xs[i]? = some xs[i] := List.getElem?_eq_getElem hi
  have hpos := length_pos_of_getElem? hxs hi
  have hmono := offset_mono xs (Nat.succ_le_of_lt h)
  rw [Nat.succ_eq_add_one, offset_succ hi] at hmono
  omega

theorem lt_length_of_getElem? (h : xs[k]? = some t) : k < xs.length :=
  (List.getElem?_eq_some_iff.mp h).1

theorem le_of_offset_le (hxs : [] ∉ xs) (hi : i < xs.length) (h : offset xs j ≤ offset xs i) :
    j ≤ i := by
  by_contra hlt
  exact absurd (offset_lt hxs hi (not_le.mp hlt)) (not_lt.mpr h)

/-- A part begins before the end of the text. -/
theorem offset_lt_length (hxs : [] ∉ xs) (hi : i < xs.length) :
    offset xs i < xs.flatten.length := by
  rw [← offset_of_length_le (le_refl xs.length)]
  exact offset_lt hxs hi hi

theorem flatten_take (xs : List (List α)) (k : ℕ) :
    (xs.take k).flatten = xs.flatten.take (offset xs k) := by
  have hsplit : xs.flatten = (xs.take k).flatten ++ (xs.drop k).flatten := by
    rw [← List.flatten_append, List.take_append_drop]
  rw [hsplit, offset, List.take_left' rfl]

/-- The text of the parts between two places. -/
theorem flatten_drop_take (xs : List (List α)) (h : i ≤ j) :
    ((xs.take j).drop i).flatten = (xs.flatten.take (offset xs j)).drop (offset xs i) := by
  have hsplit : (xs.take j).flatten = (xs.take i).flatten ++ ((xs.take j).drop i).flatten := by
    rw [← List.flatten_append, ← min_eq_left h, ← List.take_take, min_eq_left h,
      List.take_append_drop]
  rw [← flatten_take, hsplit, offset, List.drop_left' rfl]

end Offset

/-! ## Common parts and gaps -/

/-- Both have the part `t` at the place `o`. -/
def IsCommon (xs ys : List (List α)) (o : ℕ) (t : List α) : Prop :=
  ∃ i j, xs[i]? = some t ∧ ys[j]? = some t ∧ offset xs i = o ∧ offset ys j = o

/-- The beginning of the text, or the end of a common part. -/
def Starts (xs ys : List (List α)) (lo : ℕ) : Prop :=
  lo = 0 ∨ ∃ o t, IsCommon xs ys o t ∧ lo = o + t.length

/-- A stretch between common parts, or between one and an end of the text. -/
structure Gap (xs ys : List (List α)) (lo hi : ℕ) : Prop where
  lt : lo < hi
  starts : Starts xs ys lo
  ends : hi = xs.flatten.length ∨ ∃ t, IsCommon xs ys hi t
  apart : ∀ o t, IsCommon xs ys o t → o + t.length ≤ lo ∨ hi ≤ o

/-- The common parts behind the place `c` do not begin before the cursors. -/
def Ahead (xs ys : List (List α)) (c i j : ℕ) : Prop :=
  ∀ o t, IsCommon xs ys o t → o + t.length ≤ c ∨ offset xs i ≤ o ∧ offset ys j ≤ o

section Cursors

variable {xs ys : List (List α)} {c i j lo hi : ℕ} {t : List α}

theorem ahead_zero (xs ys : List (List α)) : Ahead xs ys 0 0 0 := fun o _ _ =>
  .inr ⟨Nat.zero_le o, Nat.zero_le o⟩

/-- The cursor that is behind is moved on. -/
theorem Ahead.left (h : Ahead xs ys c i j) (hlt : offset xs i < offset ys j) :
    Ahead xs ys c (i + 1) j := by
  intro o t hcommon
  refine (h o t hcommon).imp_right fun ⟨_, hj⟩ => ⟨?_, hj⟩
  obtain ⟨i', -, -, -, rfl, -⟩ := hcommon
  refine offset_mono xs (Nat.succ_le_of_lt ?_)
  by_contra hle
  have hmono := offset_mono xs (not_lt.mp hle)
  omega

theorem Ahead.right (h : Ahead xs ys c i j) (hlt : offset ys j < offset xs i) :
    Ahead xs ys c i (j + 1) := by
  intro o t hcommon
  refine (h o t hcommon).imp_right fun ⟨hi, _⟩ => ⟨hi, ?_⟩
  obtain ⟨-, j', -, -, -, rfl⟩ := hcommon
  refine offset_mono ys (Nat.succ_le_of_lt ?_)
  by_contra hle
  have hmono := offset_mono ys (not_lt.mp hle)
  omega

section

variable (hxs : [] ∉ xs) (hys : [] ∉ ys)

include hxs hys

/-- From one place on, a common part stands under both cursors, or behind both. -/
theorem under_or_behind (heq : offset xs i = offset ys j) {i' j' : ℕ}
    (hi' : xs[i']? = some t) (hj' : ys[j']? = some t) (hplace : offset xs i' = offset ys j')
    (hi : offset xs i ≤ offset xs i') : i' = i ∧ j' = j ∨ i < i' ∧ j < j' := by
  have hilt := lt_length_of_getElem? hi'
  have hjlt := lt_length_of_getElem? hj'
  have hile := le_of_offset_le hxs hilt hi
  have hjle := le_of_offset_le hys hjlt (heq ▸ hplace ▸ hi)
  rcases Nat.eq_or_lt_of_le hile with rfl | hlt
  · refine .inl ⟨rfl, Nat.le_antisymm ?_ hjle⟩
    exact le_of_offset_le hys (hjle.trans_lt hjlt) (heq ▸ hplace.symm).le
  · have hfar := offset_lt hxs (hlt.trans hilt) hlt
    refine .inr ⟨hlt, Nat.lt_of_le_of_ne hjle ?_⟩
    rintro rfl
    omega

/-- Cursors at one place with different parts are both moved on. -/
theorem Ahead.both (h : Ahead xs ys c i j) (heq : offset xs i = offset ys j)
    (hne : ∀ t, xs[i]? = some t → ys[j]? ≠ some t) : Ahead xs ys c (i + 1) (j + 1) := by
  intro o t hcommon
  refine (h o t hcommon).imp_right fun ⟨hi, _⟩ => ?_
  obtain ⟨i', j', hi', hj', rfl, hplace⟩ := hcommon
  rcases under_or_behind hxs hys heq hi' hj' hplace.symm hi with ⟨rfl, rfl⟩ | ⟨hlt, hlt'⟩
  · exact absurd hj' (hne t hi')
  · exact ⟨offset_mono xs hlt, hplace ▸ offset_mono ys hlt'⟩

/-- Over a common part the cursors are moved together. -/
theorem Ahead.step (h : Ahead xs ys c i j) (hc : c ≤ offset xs i)
    (heq : offset xs i = offset ys j) (hi : xs[i]? = some t) (hj : ys[j]? = some t) :
    Ahead xs ys (offset xs (i + 1)) (i + 1) (j + 1) ∧
      Starts xs ys (offset xs (i + 1)) ∧ offset xs (i + 1) = offset ys (j + 1) := by
  refine ⟨fun o s hcommon => ?_, .inr ⟨offset xs i, t, ⟨i, j, hi, hj, rfl, heq.symm⟩,
    offset_succ hi⟩, by rw [offset_succ hi, offset_succ hj, heq]⟩
  rcases h o s hcommon with hend | ⟨hle, -⟩
  · exact .inl (hend.trans (hc.trans (offset_le_succ xs i)))
  · obtain ⟨i', j', hi', hj', rfl, hplace⟩ := hcommon
    rcases under_or_behind hxs hys heq hi' hj' hplace.symm hle with ⟨rfl, rfl⟩ | ⟨hlt, hlt'⟩
    · exact .inl (offset_succ hi').ge
    · exact .inr ⟨offset_mono xs hlt, hplace ▸ offset_mono ys hlt'⟩

end

/-- The stretch in front of the cursors is the next gap, when they stand at a common part. -/
theorem Ahead.gap (h : Ahead xs ys c i j) (hstarts : Starts xs ys c) (hlt : c < offset xs i)
    (heq : offset xs i = offset ys j) (hi : xs[i]? = some t) (hj : ys[j]? = some t) :
    Gap xs ys c (offset xs i) ∧ ∀ lo hi, Gap xs ys lo hi → c ≤ lo →
      lo = c ∧ hi = offset xs i ∨ offset xs (i + 1) ≤ lo := by
  have hcommon : IsCommon xs ys (offset xs i) t := ⟨i, j, hi, hj, rfl, heq.symm⟩
  refine ⟨⟨hlt, hstarts, .inr ⟨t, hcommon⟩, fun o s hs => (h o s hs).imp_right And.left⟩, ?_⟩
  intro lo hi' hgap hlo
  have hbetween := hgap.lt
  rcases hgap.apart _ t hcommon with hend | hle
  · rw [offset_succ hi]
    exact .inr hend
  · left
    have hstart : lo ≤ c := by
      rcases hgap.starts with rfl | ⟨o, s, hs, rfl⟩
      · exact Nat.zero_le c
      · rcases h o s hs with hend | ⟨hfar, -⟩
        · exact hend
        · omega
    have hstop : offset xs i ≤ hi' := by
      rcases hgap.ends with rfl | ⟨s, hs⟩
      · exact offset_le_length xs i
      · rcases h hi' s hs with hend | ⟨hfar, -⟩
        · omega
        · exact hfar
    omega

/-- Behind the last common part there is one gap at most. -/
theorem Ahead.last (hxs : [] ∉ xs) (h : Ahead xs ys c i j) (hstarts : Starts xs ys c)
    (hflat : xs.flatten.length = ys.flatten.length) (hend : xs.length ≤ i ∨ ys.length ≤ j) :
    (c < xs.flatten.length → Gap xs ys c xs.flatten.length) ∧
      ∀ lo hi, Gap xs ys lo hi → c ≤ lo → lo = c ∧ hi = xs.flatten.length := by
  have hbefore : ∀ o t, IsCommon xs ys o t → o + t.length ≤ c := by
    intro o t hcommon
    refine (h o t hcommon).resolve_right fun ⟨hi, hj⟩ => ?_
    obtain ⟨i', j', hi', hj', rfl, hplace⟩ := hcommon
    have hlt := offset_lt_length hxs (lt_length_of_getElem? hi')
    rcases hend with hend | hend
    · rw [offset_of_length_le hend] at hi
      omega
    · rw [offset_of_length_le hend] at hj
      omega
  constructor
  · exact fun hlt => ⟨hlt, hstarts, .inl rfl, fun o t hcommon => .inl (hbefore o t hcommon)⟩
  · intro lo hi hgap hlo
    have hbetween := hgap.lt
    constructor
    · rcases hgap.starts with rfl | ⟨o, t, hcommon, rfl⟩
      · omega
      · exact Nat.le_antisymm (hbefore o t hcommon) hlo
    · rcases hgap.ends with hhi | ⟨t, hcommon⟩
      · exact hhi
      · have hle := hbefore hi t hcommon
        omega

theorem Gap.le_length (hgap : Gap xs ys lo hi) : hi ≤ xs.flatten.length := by
  rcases hgap.ends with rfl | ⟨t, i, -, -, -, rfl, -⟩
  · exact le_rfl
  · exact offset_le_length xs i

/-- A gap that does not begin before a common part begins behind it. -/
theorem Gap.skip (hgap : Gap xs ys lo hi) {o : ℕ} (hcommon : IsCommon xs ys o t) (h : o ≤ lo) :
    o + t.length ≤ lo := by
  have hlt := hgap.lt
  rcases hgap.apart o t hcommon with hend | hle
  · exact hend
  · omega

end Cursors

end RagflowMineru.Library
