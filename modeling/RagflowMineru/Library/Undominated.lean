import Mathlib.Data.Set.Finite.List
import Mathlib.Order.Preorder.Finite

/-!
# The entries that lie below no other entry

Of a list in a partial order those entries are kept that lie below no entry of
another place.  Equal entries lie below each other, so they all go, and then
nothing needs to be left above them.
-/

namespace RagflowMineru.Library

variable {α β : Type*} [PartialOrder β] (f : α → β)

/-- The entries, with their places, that lie below no entry of another place. -/
def undominated [DecidableLE β] (l : List α) : List (α × ℕ) :=
  l.zipIdx.filter fun b => l.zipIdx.all fun c => b.2 = c.2 || !decide (f b.1 ≤ f c.1)

/-- Entries that stand at two places lie strictly below another one. -/
def RepeatsBelow (l : List α) : Prop :=
  ∀ b ∈ l.zipIdx, ∀ c ∈ l.zipIdx, b.2 ≠ c.2 → f b.1 = f c.1 → ∃ d ∈ l, f b.1 < f d

variable {f} {l : List α}

theorem mem_undominated [DecidableLE β] {b : α × ℕ} :
    b ∈ undominated f l ↔
      b ∈ l.zipIdx ∧ ∀ c ∈ l.zipIdx, b.2 ≠ c.2 → ¬ f b.1 ≤ f c.1 := by
  rw [undominated, List.mem_filter, List.all_eq_true]
  refine and_congr_right fun _ => forall₂_congr fun c _ => ?_
  rw [Bool.or_eq_true, decide_eq_true_eq, Bool.not_eq_true', decide_eq_false_iff_not, ne_eq]
  exact or_iff_not_imp_left

/-- Above every entry there is one with nothing strictly above it. -/
theorem exists_top_ge {b : α} (hb : b ∈ l) :
    ∃ d ∈ l, f b ≤ f d ∧ ∀ c ∈ l, ¬ f d < f c := by
  obtain ⟨m, hle, hmax⟩ :=
    (List.finite_toSet (l.map f)).exists_le_maximal (List.mem_map_of_mem hb)
  obtain ⟨d, hd, rfl⟩ := List.mem_map.1 hmax.prop
  refine ⟨d, hd, hle, fun c hc hlt => ?_⟩
  exact absurd (hmax.le_of_ge (List.mem_map_of_mem hc) hlt.le) (not_le_of_gt hlt)

variable [DecidableLE β]

theorem exists_undominated_ge (h : RepeatsBelow f l) {b : α} (hb : b ∈ l) :
    ∃ d ∈ undominated f l, f b ≤ f d.1 := by
  obtain ⟨d, hd, hle, htop⟩ := exists_top_ge (f := f) hb
  obtain ⟨i, hi⟩ := List.getElem?_of_mem hd
  have hi : (d, i) ∈ l.zipIdx := List.mk_mem_zipIdx_iff_getElem?.2 hi
  refine ⟨(d, i), mem_undominated.2 ⟨hi, fun c hc hne hdc => ?_⟩, hle⟩
  have hc' : c.1 ∈ l := List.fst_mem_of_mem_zipIdx hc
  -- nothing lies strictly above `d`, so `c` would be a second place of the same entry
  rcases hdc.lt_or_eq with hlt | heq
  · exact htop c.1 hc' hlt
  · obtain ⟨e, he, hlt⟩ := h (d, i) hi c hc hne heq
    exact htop e he hlt

/-- What is left lies above everything that goes, if and only if nothing on top stands twice. -/
theorem removed_le_iff :
    (∀ b ∈ l.zipIdx, b ∉ undominated f l → ∃ d ∈ undominated f l, f b.1 ≤ f d.1) ↔
      RepeatsBelow f l := by
  constructor
  · intro h b hb c hc hne heq
    have hremoved : b ∉ undominated f l :=
      fun hmem => (mem_undominated.1 hmem).2 c hc hne heq.le
    obtain ⟨d, hd, hle⟩ := h b hb hremoved
    obtain ⟨hd, hkept⟩ := mem_undominated.1 hd
    refine ⟨d.1, List.fst_mem_of_mem_zipIdx hd, hle.lt_of_ne fun hbd => ?_⟩
    -- an entry equal to both of them lies below the one that stands elsewhere
    by_cases hplace : d.2 = b.2
    · exact hkept c hc (hplace ▸ hne) (hbd.symm.trans heq).le
    · exact hkept b hb hplace hbd.symm.le
  · intro h b hb _
    exact exists_undominated_ge h (List.fst_mem_of_mem_zipIdx hb)

end RagflowMineru.Library
