import Mathlib.Order.Monotone.Basic

/-!
# Tables of positions

When a text is rewritten, a table gives for every position of the new text a position of the
old one, and past its end there is only the end of the old text.  Tables that are sorted may be
looked up one behind the other, and the positions stay in order.
-/

namespace RagflowMineru.Library

/-- Looks a position up and goes on with what is found. -/
def lookup (table : List ℕ) (stop : ℕ) (next : ℕ → ℕ) (i : ℕ) : ℕ := table[i]?.elim stop next

section Lookup

variable {table : List ℕ} {stop : ℕ} {next : ℕ → ℕ} {i p : ℕ}

theorem lookup_of_some (h : table[i]? = some p) : lookup table stop next i = next p := by
  rw [lookup, h, Option.elim_some]

theorem lookup_of_le (h : table.length ≤ i) : lookup table stop next i = stop := by
  rw [lookup, List.getElem?_eq_none h, Option.elim_none]

theorem lookup_le (hle : ∀ p ∈ table, next p ≤ stop) (i : ℕ) :
    lookup table stop next i ≤ stop := by
  rcases Nat.lt_or_ge i table.length with hi | hi
  · rw [lookup_of_some (List.getElem?_eq_getElem hi)]
    exact hle _ (List.getElem_mem hi)
  · rw [lookup_of_le hi]

theorem lookup_mono (hsorted : table.Pairwise (· ≤ ·)) (hnext : Monotone next)
    (hle : ∀ p ∈ table, next p ≤ stop) : Monotone (lookup table stop next) := by
  intro i j hij
  rcases Nat.lt_or_ge j table.length with hj | hj
  · have hi := hij.trans_lt hj
    rw [lookup_of_some (List.getElem?_eq_getElem hi), lookup_of_some (List.getElem?_eq_getElem hj)]
    rcases Nat.eq_or_lt_of_le hij with rfl | hlt
    · exact le_rfl
    · exact hnext (List.pairwise_iff_getElem.mp hsorted i j hi hj hlt)
  · rw [lookup_of_le hj]
    exact lookup_le hle i

end Lookup

/-- Every position up to `n` has one up to `stop`, and the order stays. -/
def Covers (table : List ℕ) (n stop : ℕ) : Prop :=
  ∀ i j, i ≤ j → j ≤ n →
    ∃ p q, table[i]? = some p ∧ table[j]? = some q ∧ p ≤ q ∧ q ≤ stop

/-- The table of a function up to some position, with the end behind it. -/
def tabulate (f : ℕ → ℕ) (n stop : ℕ) : List ℕ := (List.range n).map f ++ [stop]

section Tabulate

variable {f : ℕ → ℕ} {n stop : ℕ}

@[simp] theorem length_tabulate : (tabulate f n stop).length = n + 1 := by
  rw [tabulate, List.length_append, List.length_map, List.length_range, List.length_singleton]

theorem getElem?_tabulate_of_lt {i : ℕ} (h : i < n) : (tabulate f n stop)[i]? = some (f i) := by
  have hlen : i < ((List.range n).map f).length := by
    rw [List.length_map, List.length_range]
    exact h
  rw [tabulate, List.getElem?_append_left hlen, List.getElem?_map, List.getElem?_range h,
    Option.map_some]

theorem getElem?_tabulate_end : (tabulate f n stop)[n]? = some stop := by
  have hlen : ((List.range n).map f).length = n := by rw [List.length_map, List.length_range]
  rw [tabulate, List.getElem?_append_right hlen.le, hlen, Nat.sub_self, List.getElem?_cons_zero]

/-- In the table the function is followed by an end that nothing exceeds. -/
theorem covers_tabulate (hf : Monotone f) (hle : ∀ i, f i ≤ stop) :
    Covers (tabulate f n stop) n stop := by
  intro i j hij hj
  rcases Nat.eq_or_lt_of_le hj with rfl | hj
  · rcases Nat.eq_or_lt_of_le hij with rfl | hi
    · exact ⟨stop, stop, getElem?_tabulate_end, getElem?_tabulate_end, le_rfl, le_rfl⟩
    · exact ⟨f i, stop, getElem?_tabulate_of_lt hi, getElem?_tabulate_end, hle i, le_rfl⟩
  · exact ⟨f i, f j, getElem?_tabulate_of_lt (hij.trans_lt hj), getElem?_tabulate_of_lt hj,
      hf hij, hle j⟩

end Tabulate

end RagflowMineru.Library
