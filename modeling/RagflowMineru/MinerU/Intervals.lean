import Mathlib.Data.Int.Interval
import Mathlib.Data.List.Sort
import Mathlib.Order.Interval.Set.LinearOrder
import Mathlib.Tactic.Linarith
import Mathlib.Data.Int.ConditionallyCompleteOrder

/-!
# Cutting formulas out of a text line

The masks of a line are sorted by their start and merged, and the line is then
cut at each of them from left to right.  Both ends of an interval belong to it,
so the pieces end one before a mask begins and go on one behind its end.
-/

namespace RagflowMineru.MinerU

variable {α : Type*} [LinearOrder α]

/-- The points of a list of closed intervals. -/
def covered (intervals : List (α × α)) : Set α :=
  {x | ∃ r ∈ intervals, x ∈ Set.Icc r.1 r.2}

/-- One behind the other, without a common point. -/
def Apart (intervals : List (α × α)) : Prop :=
  intervals.Pairwise fun a b => a.2 < b.1

/-- The intervals with their ends in order. -/
def Proper (intervals : List (α × α)) : Prop :=
  ∀ r ∈ intervals, r.1 ≤ r.2

@[simp]
theorem mem_covered {intervals : List (α × α)} {x : α} :
    x ∈ covered intervals ↔ ∃ r ∈ intervals, r.1 ≤ x ∧ x ≤ r.2 :=
  Iff.rfl

@[simp]
theorem covered_nil : covered ([] : List (α × α)) = ∅ := by
  ext x
  simp

@[simp]
theorem covered_cons (r : α × α) (rest : List (α × α)) :
    covered (r :: rest) = Set.Icc r.1 r.2 ∪ covered rest := by
  ext x
  simp

@[simp]
theorem covered_append (l l' : List (α × α)) : covered (l ++ l') = covered l ∪ covered l' := by
  ext x
  simp only [mem_covered, List.mem_append, Set.mem_union]
  constructor
  · rintro ⟨r, hr | hr, hx⟩
    · exact Or.inl ⟨r, hr, hx⟩
    · exact Or.inr ⟨r, hr, hx⟩
  · rintro (⟨r, hr, hx⟩ | ⟨r, hr, hx⟩)
    · exact ⟨r, Or.inl hr, hx⟩
    · exact ⟨r, Or.inr hr, hx⟩

theorem covered_perm {l l' : List (α × α)} (h : l.Perm l') : covered l = covered l' := by
  ext x
  simp only [mem_covered, h.mem_iff]

/-! ## Merging -/

/-- One turn of the loop of `merge_intervals`. -/
def mergeInterval (merged : List (α × α)) (interval : α × α) : List (α × α) :=
  match merged.getLast? with
  | none => merged ++ [interval]
  | some last =>
      if last.2 < interval.1 then merged ++ [interval]
      else merged.dropLast ++ [(last.1, max last.2 interval.2)]

/-- `merge_intervals`. -/
def mergeIntervals (intervals : List (α × α)) : List (α × α) :=
  (intervals.mergeSort fun a b => decide (a.1 ≤ b.1)).foldl mergeInterval []

/-- Sorted by their start. -/
def Sorted (intervals : List (α × α)) : Prop :=
  intervals.Pairwise fun a b => a.1 ≤ b.1

theorem sorted_mergeSort (intervals : List (α × α)) :
    Sorted (intervals.mergeSort fun a b => decide (a.1 ≤ b.1)) := by
  have hpairwise := List.pairwise_mergeSort
    (fun (a b c : α × α) (hab : decide (a.1 ≤ b.1) = true) (hbc : decide (b.1 ≤ c.1) = true) =>
      decide_eq_true ((of_decide_eq_true hab).trans (of_decide_eq_true hbc)))
    (fun a b => by simpa using le_total a.1 b.1) intervals
  exact hpairwise.imp fun hab => of_decide_eq_true hab

/-- What the loop keeps: the merged intervals are apart, and none begins behind one of those that
are still to come. -/
structure MergedBefore (merged rest : List (α × α)) : Prop where
  apart : Apart merged
  proper : Proper merged
  before : ∀ r ∈ merged, ∀ s ∈ rest, r.1 ≤ s.1

theorem mergedBefore_nil (rest : List (α × α)) : MergedBefore [] rest where
  apart := List.Pairwise.nil
  proper := by simp [Proper]
  before := by simp

theorem mergeInterval_nil (interval : α × α) : mergeInterval [] interval = [interval] :=
  rfl

theorem mergeInterval_concat (merged : List (α × α)) (last interval : α × α) :
    mergeInterval (merged ++ [last]) interval =
      if last.2 < interval.1 then merged ++ [last] ++ [interval]
      else merged ++ [(last.1, max last.2 interval.2)] := by
  simp [mergeInterval]

/-- A piece that begins behind all the others. -/
theorem Apart.append_piece {pieces : List (α × α)} {piece : α × α} (h : Apart pieces)
    (hbehind : ∀ r ∈ pieces, r.2 < piece.1) : Apart (pieces ++ [piece]) := by
  refine List.pairwise_append.2 ⟨h, List.pairwise_singleton _ _, ?_⟩
  intro r hr s hs
  rw [List.mem_singleton.1 hs]
  exact hbehind r hr

theorem Proper.append_piece {pieces : List (α × α)} {piece : α × α} (h : Proper pieces)
    (hpiece : piece.1 ≤ piece.2) : Proper (pieces ++ [piece]) := by
  intro r hr
  rcases List.mem_append.1 hr with hr | hr
  · exact h r hr
  · rwa [List.mem_singleton.1 hr]

theorem Apart.concat {merged : List (α × α)} {last interval : α × α}
    (h : Apart (merged ++ [last])) (hp : last.1 ≤ last.2) (hlt : last.2 < interval.1) :
    Apart (merged ++ [last] ++ [interval]) := by
  have hlast := (List.pairwise_append.1 h).2.2
  refine h.append_piece fun r hr => ?_
  rcases List.mem_append.1 hr with hr | hr
  · have hbefore : r.2 < last.1 := hlast r hr last (List.mem_singleton_self _)
    exact (hbefore.trans_le hp).trans hlt
  · rwa [List.mem_singleton.1 hr]

theorem Apart.extend {merged : List (α × α)} {last : α × α} (h : Apart (merged ++ [last])) (y : α) :
    Apart (merged ++ [(last.1, y)]) := by
  obtain ⟨hmerged, -, hlast⟩ := List.pairwise_append.1 h
  refine Apart.append_piece hmerged fun r hr => ?_
  exact hlast r hr last (List.mem_singleton_self _)

/-- An interval that begins inside another one only moves its end. -/
theorem Icc_union_Icc_of_mem {a b : α × α} (hab : a.1 ≤ b.1) (hba : b.1 ≤ a.2) :
    Set.Icc a.1 a.2 ∪ Set.Icc b.1 b.2 = Set.Icc a.1 (max a.2 b.2) := by
  ext x
  simp only [Set.mem_union, Set.mem_Icc, le_max_iff]
  constructor
  · rintro (⟨h1, h2⟩ | ⟨h1, h2⟩)
    · exact ⟨h1, Or.inl h2⟩
    · exact ⟨hab.trans h1, Or.inr h2⟩
  · rintro ⟨h1, h2 | h2⟩
    · exact Or.inl ⟨h1, h2⟩
    · rcases le_total b.1 x with hx | hx
      · exact Or.inr ⟨hx, h2⟩
      · exact Or.inl ⟨h1, hx.trans hba⟩

theorem MergedBefore.step {merged rest : List (α × α)} {interval : α × α}
    (h : MergedBefore merged (interval :: rest)) (hp : interval.1 ≤ interval.2)
    (hfirst : ∀ s ∈ rest, interval.1 ≤ s.1) :
    MergedBefore (mergeInterval merged interval) rest := by
  have hbefore : ∀ r ∈ merged, ∀ s ∈ rest, r.1 ≤ s.1 :=
    fun r hr s hs => h.before r hr s (List.mem_cons_of_mem _ hs)
  rcases List.eq_nil_or_concat merged with rfl | ⟨init, last, rfl⟩
  · rw [mergeInterval_nil]
    exact ⟨List.pairwise_singleton _ _, by simpa [Proper] using hp, by simpa using hfirst⟩
  · rw [List.concat_eq_append] at h hbefore ⊢
    have hlast : last ∈ init ++ [last] := by simp
    rw [mergeInterval_concat]
    split
    · next hlt =>
      refine ⟨h.apart.concat (h.proper last hlast) hlt, ?_, ?_⟩
      · intro r hr
        rcases List.mem_append.1 hr with hr | hr
        · exact h.proper r hr
        · rwa [List.mem_singleton.1 hr]
      · intro r hr
        rcases List.mem_append.1 hr with hr | hr
        · exact hbefore r hr
        · rwa [List.mem_singleton.1 hr]
    · refine ⟨h.apart.extend _, ?_, ?_⟩
      · intro r hr
        rcases List.mem_append.1 hr with hr | hr
        · exact h.proper r (List.mem_append_left _ hr)
        · rw [List.mem_singleton.1 hr]
          exact (h.proper last hlast).trans (le_max_left _ _)
      · intro r hr
        rcases List.mem_append.1 hr with hr | hr
        · exact hbefore r (List.mem_append_left _ hr)
        · rw [List.mem_singleton.1 hr]
          exact hbefore last hlast

theorem covered_mergeInterval {merged rest : List (α × α)} {interval : α × α}
    (h : MergedBefore merged (interval :: rest)) :
    covered (mergeInterval merged interval) =
      covered merged ∪ Set.Icc interval.1 interval.2 := by
  rcases List.eq_nil_or_concat merged with rfl | ⟨init, last, rfl⟩
  · simp [mergeInterval_nil]
  · rw [List.concat_eq_append] at h ⊢
    rw [mergeInterval_concat]
    split
    · simp [Set.union_assoc]
    · next hlt =>
      have hbefore : last.1 ≤ interval.1 := h.before last (by simp) interval List.mem_cons_self
      simp [Set.union_assoc, Icc_union_Icc_of_mem hbefore (not_lt.1 hlt)]

/-- The whole loop over intervals that are sorted by their start. -/
theorem foldl_mergeInterval {intervals merged : List (α × α)} (hsorted : Sorted intervals)
    (hproper : Proper intervals) (h : MergedBefore merged intervals) :
    MergedBefore (intervals.foldl mergeInterval merged) [] ∧
      covered (intervals.foldl mergeInterval merged) = covered merged ∪ covered intervals := by
  induction intervals generalizing merged with
  | nil => exact ⟨h, by simp⟩
  | cons interval rest ih =>
    obtain ⟨hfirst, hrest⟩ := List.pairwise_cons.1 hsorted
    have hstep := h.step (hproper interval List.mem_cons_self) hfirst
    obtain ⟨hmerged, hcovered⟩ :=
      ih hrest (fun r hr => hproper r (List.mem_cons_of_mem _ hr)) hstep
    refine ⟨hmerged, ?_⟩
    rw [List.foldl_cons, hcovered, covered_mergeInterval h, covered_cons, Set.union_assoc]

section Merging

variable {intervals : List (α × α)} (h : Proper intervals)

include h

theorem mergeIntervals_spec :
    MergedBefore (mergeIntervals intervals) [] ∧
      covered (mergeIntervals intervals) = covered intervals := by
  have hperm := List.mergeSort_perm intervals fun a b => decide (a.1 ≤ b.1)
  have hproper : Proper (intervals.mergeSort fun a b => decide (a.1 ≤ b.1)) :=
    fun r hr => h r (hperm.mem_iff.1 hr)
  obtain ⟨hmerged, hcovered⟩ :=
    foldl_mergeInterval (sorted_mergeSort intervals) hproper (mergedBefore_nil _)
  refine ⟨hmerged, ?_⟩
  rw [mergeIntervals, hcovered, covered_nil, Set.empty_union, covered_perm hperm]

end Merging

/-! ## Cutting -/

/-- The variables of the loop of `remove_intervals`. -/
structure CutState where
  result : List (ℤ × ℤ)
  originalStart : ℤ

/-- One turn of the loop of `remove_intervals`. -/
def cutMask (originalEnd : ℤ) (s : CutState) (mask : ℤ × ℤ) : CutState :=
  if mask.1 > originalEnd then s
  else if mask.2 < s.originalStart then s
  else
    { result :=
        if s.originalStart < mask.1 then s.result ++ [(s.originalStart, mask.1 - 1)]
        else s.result
      originalStart := max (mask.2 + 1) s.originalStart }

/-- Behind the loop: what is left of the original range is the last piece. -/
def CutState.addRemaining (s : CutState) (originalEnd : ℤ) : List (ℤ × ℤ) :=
  if s.originalStart ≤ originalEnd then s.result ++ [(s.originalStart, originalEnd)]
  else s.result

/-- `remove_intervals`. -/
def removeIntervals (original : ℤ × ℤ) (masks : List (ℤ × ℤ)) : List (ℤ × ℤ) :=
  ((mergeIntervals masks).foldl (cutMask original.2) ⟨[], original.1⟩).addRemaining original.2

/-- What is left when the loop stands at `s`: the pieces that are finished, and the rest. -/
def CutState.remaining (s : CutState) (originalEnd : ℤ) : Set ℤ :=
  covered s.result ∪ Set.Icc s.originalStart originalEnd

/-- What the loop keeps, `rest` being the masks that are still to come. -/
structure CutState.Valid (s : CutState) (rest : List (ℤ × ℤ)) : Prop where
  apart : Apart s.result
  proper : Proper s.result
  ahead : ∀ r ∈ s.result, r.2 < s.originalStart
  before : ∀ r ∈ s.result, ∀ m ∈ rest, r.2 < m.1

section Cutting

variable {originalEnd : ℤ} {s : CutState} {mask : ℤ × ℤ} {rest : List (ℤ × ℤ)}

/-- The three ways of a turn: the mask misses what is left, begins at or before it, or cuts it. -/
theorem cutMask_cases (originalEnd : ℤ) (s : CutState) (mask : ℤ × ℤ) :
    ((originalEnd < mask.1 ∨ mask.2 < s.originalStart) ∧ cutMask originalEnd s mask = s) ∨
      (mask.1 ≤ s.originalStart ∧ s.originalStart ≤ mask.2 ∧
        cutMask originalEnd s mask = ⟨s.result, mask.2 + 1⟩) ∨
      (s.originalStart < mask.1 ∧ s.originalStart ≤ mask.2 ∧ mask.1 ≤ originalEnd ∧
        cutMask originalEnd s mask =
          ⟨s.result ++ [(s.originalStart, mask.1 - 1)], mask.2 + 1⟩) := by
  unfold cutMask
  split
  · next hend => exact Or.inl ⟨Or.inl hend, rfl⟩
  · next hend =>
    split
    · next hstart => exact Or.inl ⟨Or.inr hstart, rfl⟩
    · next hstart =>
      have hmax : max (mask.2 + 1) s.originalStart = mask.2 + 1 := max_eq_left (by linarith)
      rw [hmax]
      split
      · next hcut => exact Or.inr (Or.inr ⟨hcut, not_lt.1 hstart, not_lt.1 hend, rfl⟩)
      · next hcut => exact Or.inr (Or.inl ⟨not_lt.1 hcut, not_lt.1 hstart, rfl⟩)

theorem CutState.Valid.step (h : s.Valid (mask :: rest)) (hp : mask.1 ≤ mask.2)
    (hfirst : ∀ m ∈ rest, mask.2 < m.1) : (cutMask originalEnd s mask).Valid rest := by
  have hbefore : ∀ r ∈ s.result, ∀ m ∈ rest, r.2 < m.1 :=
    fun r hr m hm => h.before r hr m (List.mem_cons_of_mem _ hm)
  rcases cutMask_cases originalEnd s mask with ⟨-, heq⟩ | ⟨-, hle, heq⟩ | ⟨hlt, hle, -, heq⟩
  · rw [heq]
    exact ⟨h.apart, h.proper, h.ahead, hbefore⟩
  · rw [heq]
    refine ⟨h.apart, h.proper, ?_, hbefore⟩
    intro r hr
    exact (h.ahead r hr).trans_le (hle.trans (Int.le_add_one le_rfl))
  · rw [heq]
    refine ⟨h.apart.append_piece h.ahead,
      h.proper.append_piece (Int.le_sub_one_of_lt hlt), ?_, ?_⟩
    · intro r hr
      rcases List.mem_append.1 hr with hr | hr
      · exact (h.ahead r hr).trans_le (hle.trans (Int.le_add_one le_rfl))
      · rw [List.mem_singleton.1 hr]
        exact (sub_one_lt mask.1).trans_le (hp.trans (Int.le_add_one le_rfl))
    · intro r hr m hm
      rcases List.mem_append.1 hr with hr | hr
      · exact hbefore r hr m hm
      · rw [List.mem_singleton.1 hr]
        exact (sub_one_lt mask.1).trans (hp.trans_lt (hfirst m hm))

theorem remaining_cutMask (h : s.Valid (mask :: rest)) :
    (cutMask originalEnd s mask).remaining originalEnd =
      s.remaining originalEnd \ Set.Icc mask.1 mask.2 := by
  ext x
  have hout : x ∈ covered s.result → x < mask.1 := by
    rintro ⟨r, hr, -, hx⟩
    exact hx.trans_lt (h.before r hr mask List.mem_cons_self)
  simp only [CutState.remaining, Set.mem_union, Set.mem_sdiff, Set.mem_Icc]
  rcases cutMask_cases originalEnd s mask with
    ⟨hmiss, heq⟩ | ⟨hle, hle', heq⟩ | ⟨hlt, hle, hend, heq⟩
  · rw [heq]
    constructor
    · rintro (hx | hx)
      · exact ⟨Or.inl hx, fun hm => absurd (hout hx) (not_lt.2 hm.1)⟩
      · refine ⟨Or.inr hx, fun hm => ?_⟩
        rcases hmiss with hmiss | hmiss
        · linarith [hm.1, hx.2]
        · linarith [hm.2, hx.1]
    · exact fun hx => hx.1
  · rw [heq]
    constructor
    · rintro (hx | ⟨hx, hx'⟩)
      · exact ⟨Or.inl hx, fun hm => absurd (hout hx) (not_lt.2 hm.1)⟩
      · have hbehind : mask.2 < x := hx
        exact ⟨Or.inr ⟨hle'.trans hbehind.le, hx'⟩, fun hm => absurd hm.2 (not_le.2 hbehind)⟩
    · rintro ⟨hx | ⟨hx, hx'⟩, hm⟩
      · exact Or.inl hx
      · have hbehind : mask.2 < x := not_le.1 fun hle'' => hm ⟨hle.trans hx, hle''⟩
        exact Or.inr ⟨hbehind, hx'⟩
  · rw [heq, covered_append, Set.mem_union]
    have hpiece : x ∈ covered [(s.originalStart, mask.1 - 1)] ↔
        s.originalStart ≤ x ∧ x < mask.1 := by
      rw [← Int.le_sub_one_iff]
      simp
    rw [hpiece]
    constructor
    · rintro ((hx | ⟨hx, hx'⟩) | ⟨hx, hx'⟩)
      · exact ⟨Or.inl hx, fun hm => absurd (hout hx) (not_lt.2 hm.1)⟩
      · exact ⟨Or.inr ⟨hx, hx'.le.trans hend⟩, fun hm => absurd hx' (not_lt.2 hm.1)⟩
      · have hbehind : mask.2 < x := hx
        exact ⟨Or.inr ⟨hle.trans hbehind.le, hx'⟩, fun hm => absurd hm.2 (not_le.2 hbehind)⟩
    · rintro ⟨hx | ⟨hx, hx'⟩, hm⟩
      · exact Or.inl (Or.inl hx)
      · rcases lt_or_ge x mask.1 with hbefore | hbefore
        · exact Or.inl (Or.inr ⟨hx, hbefore⟩)
        · have hbehind : mask.2 < x := not_le.1 fun hle' => hm ⟨hbefore, hle'⟩
          exact Or.inr ⟨hbehind, hx'⟩

end Cutting

/-- The whole loop over masks that are apart. -/
theorem foldl_cutMask {masks : List (ℤ × ℤ)} (originalEnd : ℤ) {s : CutState}
    (happart : Apart masks) (hproper : Proper masks) (h : s.Valid masks) :
    (masks.foldl (cutMask originalEnd) s).Valid [] ∧
      (masks.foldl (cutMask originalEnd) s).remaining originalEnd =
        s.remaining originalEnd \ covered masks := by
  induction masks generalizing s with
  | nil => exact ⟨h, by simp⟩
  | cons mask rest ih =>
    obtain ⟨hfirst, hrest⟩ := List.pairwise_cons.1 happart
    have hstep : (cutMask originalEnd s mask).Valid rest :=
      h.step (hproper mask List.mem_cons_self) hfirst
    obtain ⟨hvalid, hremaining⟩ :=
      ih hrest (fun m hm => hproper m (List.mem_cons_of_mem _ hm)) hstep
    refine ⟨hvalid, ?_⟩
    rw [List.foldl_cons, hremaining, remaining_cutMask h, covered_cons, sdiff_sdiff]
    rfl

theorem addRemaining_spec {s : CutState} (h : s.Valid []) (originalEnd : ℤ) :
    Apart (s.addRemaining originalEnd) ∧ Proper (s.addRemaining originalEnd) ∧
      covered (s.addRemaining originalEnd) = s.remaining originalEnd := by
  unfold CutState.addRemaining CutState.remaining
  split
  · next hle =>
    exact ⟨h.apart.append_piece h.ahead, h.proper.append_piece hle, by simp⟩
  · next hle =>
    refine ⟨h.apart, h.proper, ?_⟩
    rw [Set.Icc_eq_empty hle, Set.union_empty]

/-- The pieces are apart and in order, and their points are those of the original interval that
no mask contains. -/
theorem removeIntervals_eq_sdiff (original : ℤ × ℤ) {masks : List (ℤ × ℤ)}
    (hmasks : Proper masks) :
    Apart (removeIntervals original masks) ∧ Proper (removeIntervals original masks) ∧
      covered (removeIntervals original masks) =
        Set.Icc original.1 original.2 \ covered masks := by
  obtain ⟨hmerged, hcovered⟩ := mergeIntervals_spec hmasks
  have hinit : CutState.Valid ⟨[], original.1⟩ (mergeIntervals masks) :=
    ⟨List.Pairwise.nil, by simp [Proper], by simp, by simp⟩
  obtain ⟨hvalid, hremaining⟩ :=
    foldl_cutMask original.2 hmerged.apart hmerged.proper hinit
  obtain ⟨hapart, hproper, hpieces⟩ := addRemaining_spec hvalid original.2
  refine ⟨hapart, hproper, ?_⟩
  calc covered (removeIntervals original masks)
      = CutState.remaining ⟨[], original.1⟩ original.2 \ covered (mergeIntervals masks) :=
        hpieces.trans hremaining
    _ = Set.Icc original.1 original.2 \ covered masks := by
        simp [CutState.remaining, hcovered]

theorem removeIntervals_eq_sdiff_line :
    Apart (removeIntervals (0, 10) [(6, 7), (2, 3)]) ∧
      Proper (removeIntervals (0, 10) [(6, 7), (2, 3)]) ∧
      covered (removeIntervals (0, 10) [(6, 7), (2, 3)]) =
        Set.Icc 0 10 \ covered [(6, 7), (2, 3)] :=
  removeIntervals_eq_sdiff (0, 10) (by simp [Proper])

end RagflowMineru.MinerU
