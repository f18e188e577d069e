import Mathlib.Data.List.Induction
import Mathlib.Data.List.Nodup
import Mathlib.Tactic.SplitIfs

/-!
# First occurrences

A list is thinned out to the items whose key no earlier item has.  A coarser key
leaves fewer items, and it leaves the same ones exactly if it tells apart what
the finer key tells apart.
-/

namespace RagflowMineru.Library.Distinct

variable {α κ μ : Type*} [DecidableEq κ] [DecidableEq μ]

/-- The items whose key no earlier item has. -/
def firstOccurrences (key : α → κ) (l : List α) : List α :=
  (l.zipIdx.filter fun p => key p.1 ∉ (l.take p.2).map key).map Prod.fst

variable (key : α → κ)

@[simp] theorem firstOccurrences_nil : firstOccurrences key [] = [] :=
  rfl

theorem firstOccurrences_concat (l : List α) (x : α) : firstOccurrences key (l ++ [x]) =
    firstOccurrences key l ++ if key x ∈ l.map key then [] else [x] := by
  have hold : l.zipIdx.filter (fun p => key p.1 ∉ ((l ++ [x]).take p.2).map key) =
      l.zipIdx.filter (fun p => key p.1 ∉ (l.take p.2).map key) := by
    apply List.filter_congr
    rintro ⟨y, i⟩ hy
    have hi : i < l.length := by simpa using (List.mem_zipIdx hy).2.1
    rw [List.take_append_of_le_length (Nat.le_of_lt hi)]
  rw [firstOccurrences, firstOccurrences, List.zipIdx_append, List.filter_append, hold,
    List.map_append]
  congr 1
  by_cases hx : key x ∈ l.map key
  · simp only [List.mem_map] at hx
    simp [hx]
  · simp only [List.mem_map] at hx
    simp [hx]

/-- The scan that keeps the keys it has seen. -/
def scanStep (s : List κ × List α) (x : α) : List κ × List α :=
  if key x ∈ s.1 then s else (key x :: s.1, s.2 ++ [x])

theorem foldl_scanStep (l : List α) :
    (∀ k, k ∈ (l.foldl (scanStep key) ([], [])).1 ↔ k ∈ l.map key) ∧
      (l.foldl (scanStep key) ([], [])).2 = firstOccurrences key l := by
  induction l using List.reverseRecOn with
  | nil => simp
  | append_singleton l x ih =>
    obtain ⟨hseen, houts⟩ := ih
    rw [List.foldl_append, List.foldl_cons, List.foldl_nil, firstOccurrences_concat, ← houts]
    simp only [scanStep, hseen]
    split_ifs with hx
    · refine ⟨fun k => ?_, (List.append_nil _).symm⟩
      rw [hseen, List.map_append, List.mem_append, List.map_singleton, List.mem_singleton]
      constructor
      · exact Or.inl
      · rintro (hk | rfl)
        · exact hk
        · exact hx
    · refine ⟨fun k => ?_, rfl⟩
      rw [List.mem_cons, hseen, List.map_append, List.mem_append, List.map_singleton,
        List.mem_singleton, or_comm]

/-! ## Union -/

theorem mem_map_firstOccurrences {l : List α} {k : κ} :
    k ∈ (firstOccurrences key l).map key ↔ k ∈ l.map key := by
  induction l using List.reverseRecOn with
  | nil => rfl
  | append_singleton l x ih =>
    rw [firstOccurrences_concat, List.map_append, List.map_append, List.mem_append,
      List.mem_append, ih]
    split_ifs with hx
    · simp only [List.map_nil, List.not_mem_nil, or_false, List.map_singleton,
        List.mem_singleton]
      refine (or_iff_left_of_imp ?_).symm
      rintro rfl
      exact hx
    · rfl

theorem firstOccurrences_sublist_self (l : List α) : (firstOccurrences key l).Sublist l := by
  induction l using List.reverseRecOn with
  | nil => exact List.Sublist.slnil
  | append_singleton l x ih =>
    rw [firstOccurrences_concat]
    refine ih.append ?_
    split_ifs
    · exact List.nil_sublist _
    · exact List.Sublist.refl _

theorem nodup_map_firstOccurrences (l : List α) : ((firstOccurrences key l).map key).Nodup := by
  induction l using List.reverseRecOn with
  | nil => exact List.nodup_nil
  | append_singleton l x ih =>
    rw [firstOccurrences_concat]
    split_ifs with hx
    · rwa [List.append_nil]
    · rw [List.map_append, List.map_singleton, List.nodup_append]
      refine ⟨ih, List.nodup_singleton _, ?_⟩
      rintro k hk _ hkx rfl
      rw [List.mem_singleton.mp hkx, mem_map_firstOccurrences] at hk
      exact hx hk

/-- What is thinned out already may be put behind another list. -/
theorem firstOccurrences_append_firstOccurrences (l m : List α) :
    firstOccurrences key (l ++ firstOccurrences key m) = firstOccurrences key (l ++ m) := by
  induction m using List.reverseRecOn with
  | nil => rfl
  | append_singleton m x ih =>
    rw [← List.append_assoc, firstOccurrences_concat, firstOccurrences_concat, ← ih]
    split_ifs with hx hlm hlm
    · rw [List.append_nil, List.append_nil]
    · rw [List.map_append, List.mem_append, not_or] at hlm
      exact absurd hx hlm.2
    · rw [← List.append_assoc, firstOccurrences_concat, if_pos]
      simpa only [List.map_append, List.mem_append, mem_map_firstOccurrences] using hlm
    · rw [← List.append_assoc, firstOccurrences_concat, if_neg]
      simpa only [List.map_append, List.mem_append, mem_map_firstOccurrences] using hlm

theorem firstOccurrences_firstOccurrences (l : List α) :
    firstOccurrences key (firstOccurrences key l) = firstOccurrences key l :=
  firstOccurrences_append_firstOccurrences key [] l

/-- Items whose keys are all there add nothing. -/
theorem firstOccurrences_append_of_subset {l m : List α} (h : ∀ x ∈ m, key x ∈ l.map key) :
    firstOccurrences key (l ++ m) = firstOccurrences key l := by
  induction m using List.reverseRecOn with
  | nil => rw [List.append_nil]
  | append_singleton m x ih =>
    rw [← List.append_assoc, firstOccurrences_concat, if_pos, List.append_nil,
      ih fun y hy => h y (List.mem_append_left _ hy)]
    rw [List.map_append]
    exact List.mem_append_left _ (h x (by simp))

/-- A second union with the same list changes nothing. -/
theorem firstOccurrences_union_union (l m : List α) :
    firstOccurrences key (firstOccurrences key (l ++ m) ++ m) = firstOccurrences key (l ++ m) := by
  rw [firstOccurrences_append_of_subset, firstOccurrences_firstOccurrences]
  intro x hx
  rw [mem_map_firstOccurrences]
  exact List.mem_map_of_mem (List.mem_append_right l hx)

/-! ## A finer and a coarser key -/

variable {key} {fine : α → μ} (hfine : ∀ x y, fine x = fine y → key x = key y)

include hfine

theorem firstOccurrences_sublist (l : List α) :
    (firstOccurrences key l).Sublist (firstOccurrences fine l) := by
  induction l using List.reverseRecOn with
  | nil => exact List.Sublist.slnil
  | append_singleton l x ih =>
    rw [firstOccurrences_concat, firstOccurrences_concat]
    apply ih.append
    split_ifs with hkey hx hx
    · exact List.Sublist.slnil
    · exact List.nil_sublist _
    · obtain ⟨y, hy, hyx⟩ := List.mem_map.mp hx
      exact absurd (List.mem_map.mpr ⟨y, hy, hfine y x hyx⟩) hkey
    · exact List.Sublist.refl _

/-- The coarser key leaves what the finer one leaves exactly if it does not merge items that the
finer one tells apart. -/
theorem firstOccurrences_eq_iff (l : List α) :
    firstOccurrences key l = firstOccurrences fine l ↔
      ∀ x ∈ l, ∀ y ∈ l, key x = key y → fine x = fine y := by
  have hlength : ∀ l : List α, firstOccurrences key l = firstOccurrences fine l ↔
      (firstOccurrences key l).length = (firstOccurrences fine l).length := fun l =>
    ⟨congrArg List.length, (firstOccurrences_sublist hfine l).eq_of_length⟩
  induction l using List.reverseRecOn with
  | nil => simp
  | append_singleton l x ih =>
    have hle := (firstOccurrences_sublist hfine l).length_le
    have hsplit : firstOccurrences key (l ++ [x]) = firstOccurrences fine (l ++ [x]) ↔
        firstOccurrences key l = firstOccurrences fine l ∧
          (key x ∈ l.map key → fine x ∈ l.map fine) := by
      rw [hlength, hlength, firstOccurrences_concat, firstOccurrences_concat, List.length_append,
        List.length_append]
      split_ifs with hkey hx hx
      · simp [hx]
      · simp only [List.length_nil, List.length_singleton, hkey, hx]
        constructor
        · intro hlen
          omega
        · rintro ⟨-, himp⟩
          exact absurd trivial himp
      · obtain ⟨y, hy, hyx⟩ := List.mem_map.mp hx
        exact absurd (List.mem_map.mpr ⟨y, hy, hfine y x hyx⟩) hkey
      · simp [hkey]
    refine hsplit.trans ⟨?_, ?_⟩
    · rintro ⟨hl, hx⟩
      have hsame := ih.mp hl
      have hlast : ∀ y ∈ l, key x = key y → fine x = fine y := by
        intro y hy hxy
        obtain ⟨z, hz, hzx⟩ := List.mem_map.mp (hx (List.mem_map.mpr ⟨y, hy, hxy.symm⟩))
        exact hzx.symm.trans (hsame z hz y hy ((hfine z x hzx).trans hxy))
      intro y hy z hz hyz
      simp only [List.mem_append, List.mem_singleton] at hy hz
      rcases hy with hy | rfl
      · rcases hz with hz | rfl
        · exact hsame y hy z hz hyz
        · exact (hlast y hy hyz.symm).symm
      · rcases hz with hz | rfl
        · exact hlast z hz hyz
        · rfl
    · intro hsame
      refine ⟨ih.mpr fun y hy z hz => hsame y (by simp [hy]) z (by simp [hz]), fun hx => ?_⟩
      obtain ⟨y, hy, hyx⟩ := List.mem_map.mp hx
      exact List.mem_map.mpr ⟨y, hy, hsame y (by simp [hy]) x (by simp) hyx⟩

end RagflowMineru.Library.Distinct
