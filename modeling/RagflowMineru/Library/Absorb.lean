import Mathlib.Order.Lattice
import Mathlib.Logic.Function.Basic
import Mathlib.Data.List.Induction

/-!
# Absorbing

Items carry an extent in a semilattice.  An item that is absorbed by another
one is marked as gone, and the other one grows to the join of both.  An item
that is gone can still absorb others; its extent then grows without use, and
what it absorbs may be lost.
-/

namespace RagflowMineru.Library

variable {ι β : Type*} [SemilatticeSup β]

/-- The current extents and the items that are gone, in the order in which they went. -/
structure Absorbing (ι β : Type*) where
  extent : ι → β
  gone : List ι

namespace Absorbing

variable (orig : ι → β) (ids : List ι)

/-- The original extent of every item lies in the current extent of an item that is not gone. -/
def Covered (s : Absorbing ι β) : Prop :=
  ∀ i ∈ ids, ∃ k ∈ ids, k ∉ s.gone ∧ orig i ≤ s.extent k

/-- What it takes that `r` may be absorbed by an item that is gone already: every original extent
lies in the current extent of an item other than `r` that is not gone. -/
def Spared (s : Absorbing ι β) (r : ι) : Prop :=
  ∀ i ∈ ids, ∃ k ∈ ids, k ∉ s.gone ∧ k ≠ r ∧ orig i ≤ s.extent k

variable [DecidableEq ι]

/-- `l` absorbs `r`. -/
def absorb (s : Absorbing ι β) (r l : ι) : Absorbing ι β where
  extent := Function.update s.extent l (s.extent l ⊔ s.extent r)
  gone := s.gone ++ [r]

variable {orig ids} {s : Absorbing ι β} {r l : ι}

theorem mem_gone_absorb {i : ι} : i ∈ (s.absorb r l).gone ↔ i ∈ s.gone ∨ i = r := by
  simp [absorb]

theorem extent_absorb_of_ne {i : ι} (h : i ≠ l) : (s.absorb r l).extent i = s.extent i :=
  Function.update_of_ne h _ _

theorem extent_absorb_self : (s.absorb r l).extent l = s.extent l ⊔ s.extent r :=
  Function.update_self _ _ _

/-- Extents never shrink. -/
theorem extent_le_absorb (i : ι) : s.extent i ≤ (s.absorb r l).extent i := by
  by_cases hi : i = l
  · subst i
    rw [extent_absorb_self]
    exact le_sup_left
  · rw [extent_absorb_of_ne hi]

/-- An item that is not gone takes over all that the absorbed item covered. -/
theorem Covered.absorb (h : Covered orig ids s) (hl : l ∈ ids) (hne : l ≠ r) (hnot : l ∉ s.gone) :
    Covered orig ids (s.absorb r l) := by
  intro i hi
  obtain ⟨k, hk, hgone, hle⟩ := h i hi
  by_cases hkr : k = r
  · refine ⟨l, hl, ?_, ?_⟩
    · rw [mem_gone_absorb]
      exact not_or.mpr ⟨hnot, hne⟩
    · rw [extent_absorb_self]
      rw [hkr] at hle
      exact hle.trans le_sup_right
  · refine ⟨k, hk, ?_, hle.trans (extent_le_absorb k)⟩
    rw [mem_gone_absorb]
    exact not_or.mpr ⟨hgone, hkr⟩

/-- An item that is gone may absorb just what is spared. -/
theorem covered_absorb_of_gone_iff (hgone : l ∈ s.gone) :
    Covered orig ids (s.absorb r l) ↔ Spared orig ids s r := by
  have hitem : ∀ k, k ∉ (s.absorb r l).gone ↔ k ∉ s.gone ∧ k ≠ r := by
    intro k
    rw [mem_gone_absorb, not_or]
  have hextent : ∀ k, k ∉ s.gone → (s.absorb r l).extent k = s.extent k := by
    intro k hk
    apply extent_absorb_of_ne
    rintro rfl
    exact hk hgone
  constructor
  · intro h i hi
    obtain ⟨k, hk, hnot, hle⟩ := h i hi
    obtain ⟨hnot, hne⟩ := (hitem k).mp hnot
    rw [hextent k hnot] at hle
    exact ⟨k, hk, hnot, hne, hle⟩
  · intro h i hi
    obtain ⟨k, hk, hnot, hne, hle⟩ := h i hi
    refine ⟨k, hk, (hitem k).mpr ⟨hnot, hne⟩, ?_⟩
    rw [hextent k hnot]
    exact hle

/-- What one absorption does to the cover. -/
theorem covered_absorb_iff (h : Covered orig ids s) (hl : l ∈ ids) (hne : l ≠ r) :
    Covered orig ids (s.absorb r l) ↔ (l ∈ s.gone → Spared orig ids s r) := by
  by_cases hgone : l ∈ s.gone
  · rw [covered_absorb_of_gone_iff hgone]
    exact ⟨fun hspared _ => hspared, fun himp => himp hgone⟩
  · exact ⟨fun _ hin => absurd hin hgone, fun _ => h.absorb hl hne hgone⟩

end Absorbing

end RagflowMineru.Library
