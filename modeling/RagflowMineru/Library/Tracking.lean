import Mathlib.Order.Nat
import Mathlib.Data.List.Nodup

/-!
# Positions that are tracked through deletions

Some entries of a list are known by their positions.  When an entry is deleted,
the positions behind it move up by one; the others are where they were.  What is
not tracked stays in its order.
-/

namespace RagflowMineru.Library

variable {α : Type*}

/-- Where position `k` is after position `a` is deleted. -/
def shift (a k : ℕ) : ℕ := if k < a then k else k - 1

/-- The tracked positions after the one at `a` is deleted. -/
def dropTracked (a : ℕ) (ks : List ℕ) : List ℕ := (ks.filter fun k => k ≠ a).map (shift a)

/-- The entries that are not tracked. -/
def untracked (l : List α) (ks : List ℕ) : List α :=
  (l.zipIdx.filter fun p => p.2 ∉ ks).map Prod.fst

theorem shift_of_lt {a k : ℕ} (h : k < a) : shift a k = k := if_pos h

theorem shift_of_gt {a k : ℕ} (h : a < k) : shift a k = k - 1 := if_neg h.not_gt

theorem shift_injOn {a k k' : ℕ} (hk : k ≠ a) (hk' : k' ≠ a) (h : shift a k = shift a k') :
    k = k' := by
  rcases hk.lt_or_gt with hlt | hgt
  · rcases hk'.lt_or_gt with hlt' | hgt'
    · rwa [shift_of_lt hlt, shift_of_lt hlt'] at h
    · rw [shift_of_lt hlt, shift_of_gt hgt'] at h
      omega
  · rcases hk'.lt_or_gt with hlt' | hgt'
    · rw [shift_of_gt hgt, shift_of_lt hlt'] at h
      omega
    · rw [shift_of_gt hgt, shift_of_gt hgt'] at h
      omega

theorem getElem?_eraseIdx_shift (l : List α) {a k : ℕ} (h : k ≠ a) :
    (l.eraseIdx a)[shift a k]? = l[k]? := by
  rcases h.lt_or_gt with hlt | hgt
  · rw [shift_of_lt hlt, List.getElem?_eraseIdx_of_lt hlt]
  · rw [shift_of_gt hgt, List.getElem?_eraseIdx_of_ge (Nat.le_sub_one_of_lt hgt),
      Nat.sub_add_cancel (Nat.one_le_of_lt hgt)]

theorem dropTracked_nodup {ks : List ℕ} (h : ks.Nodup) (a : ℕ) : (dropTracked a ks).Nodup := by
  refine List.Nodup.map_on ?_ (h.filter _)
  intro k hk k' hk' heq
  exact shift_injOn (of_decide_eq_true (List.mem_filter.1 hk).2)
    (of_decide_eq_true (List.mem_filter.1 hk').2) heq

theorem map_getElem?_dropTracked (l : List α) (a : ℕ) (ks : List ℕ) :
    (dropTracked a ks).map ((l.eraseIdx a)[·]?) = (ks.filter fun k => k ≠ a).map (l[·]?) := by
  rw [dropTracked, List.map_map]
  refine List.map_congr_left fun k hk => ?_
  exact getElem?_eraseIdx_shift l (of_decide_eq_true (List.mem_filter.1 hk).2)

theorem shift_eq_iff {a b k : ℕ} (h : b < a) (hk : k ≠ a) : shift a k = b ↔ k = b := by
  rcases hk.lt_or_gt with hlt | hgt
  · rw [shift_of_lt hlt]
  · rw [shift_of_gt hgt]
    omega

theorem shift_eq_iff_of_ge {a m k : ℕ} (h : a ≤ m) (hk : k ≠ a) : shift a k = m ↔ k = m + 1 := by
  rcases hk.lt_or_gt with hlt | hgt
  · rw [shift_of_lt hlt]
    omega
  · rw [shift_of_gt hgt]
    omega

/-- An earlier position is found again. -/
theorem filter_dropTracked {a b : ℕ} (h : b < a) (ks : List ℕ) :
    (dropTracked a ks).filter (fun k => k ≠ b) =
      (ks.filter fun k => k ≠ b ∧ k ≠ a).map (shift a) := by
  rw [dropTracked, List.filter_map, List.filter_filter]
  congr 1
  refine List.filter_congr fun k _ => ?_
  by_cases hk : k = a
  · simp [hk]
  · simp [hk, shift_eq_iff h hk]

/-- The deletion of two positions, the later one first. -/
theorem map_getElem?_dropTracked₂ (l : List α) {a b : ℕ} (h : b < a) (ks : List ℕ) :
    (dropTracked b (dropTracked a ks)).map (((l.eraseIdx a).eraseIdx b)[·]?) =
      (ks.filter fun k => k ≠ b ∧ k ≠ a).map (l[·]?) := by
  rw [map_getElem?_dropTracked, filter_dropTracked h, List.map_map]
  refine List.map_congr_left fun k hk => ?_
  exact getElem?_eraseIdx_shift l (of_decide_eq_true (List.mem_filter.1 hk).2).2

theorem eraseIdx_eq_filter {ks : List ℕ} (h : ks.Nodup) {i k : ℕ} (hi : ks[i]? = some k) :
    ks.eraseIdx i = ks.filter fun m => m ≠ k := by
  obtain ⟨hlt, rfl⟩ := List.getElem?_eq_some_iff.1 hi
  rw [← List.erase_eq_eraseIdx_of_idxOf (h.idxOf_getElem i hlt), h.erase_eq_filter]
  refine List.filter_congr fun m _ => ?_
  rw [Bool.eq_iff_iff, bne_iff_ne, decide_eq_true_iff]

theorem eraseIdx_eraseIdx_eq_filter {ks : List ℕ} (h : ks.Nodup) {i j a b : ℕ} (hij : i < j)
    (ha : ks[i]? = some a) (hb : ks[j]? = some b) :
    (ks.eraseIdx j).eraseIdx i = ks.filter fun k => k ≠ a ∧ k ≠ b := by
  have ha' : (ks.eraseIdx j)[i]? = some a := by
    rw [List.getElem?_eraseIdx_of_lt hij, ha]
  rw [eraseIdx_eq_filter (h.eraseIdx j) ha', eraseIdx_eq_filter h hb, List.filter_filter]
  refine List.filter_congr fun k _ => ?_
  simp

theorem lt_length_of_map_getElem?_eq {l ts : List α} {ks : List ℕ}
    (h : ks.map (l[·]?) = ts.map some) : ∀ k ∈ ks, k < l.length := by
  intro k hk
  have hmem : l[k]? ∈ ts.map some := by
    rw [← h]
    exact List.mem_map_of_mem hk
  obtain ⟨x, -, hx⟩ := List.mem_map.1 hmem
  exact (List.getElem?_eq_some_iff.1 hx.symm).1

/-- A new entry at the end is known by the length. -/
theorem map_getElem?_concat {l ts : List α} {ks : List ℕ} (h : ks.map (l[·]?) = ts.map some) (x : α) :
    (ks ++ [l.length]).map ((l ++ [x])[·]?) = (ts ++ [x]).map some := by
  have hlt : ∀ k ∈ ks, k < l.length := lt_length_of_map_getElem?_eq h
  rw [List.map_append, List.map_append, ← h]
  congr 1
  · exact List.map_congr_left fun k hk => List.getElem?_append_left (hlt k hk)
  · simp

theorem mem_dropTracked_iff {a m : ℕ} {ks : List ℕ} :
    m ∈ dropTracked a ks ↔ ∃ k ∈ ks, k ≠ a ∧ shift a k = m := by
  simp only [dropTracked, List.mem_map, List.mem_filter, decide_eq_true_iff, and_assoc]

theorem mem_dropTracked_of_lt {a m : ℕ} {ks : List ℕ} (h : m < a) :
    m ∈ dropTracked a ks ↔ m ∈ ks := by
  rw [mem_dropTracked_iff]
  constructor
  · rintro ⟨k, hk, hne, hshift⟩
    rwa [← (shift_eq_iff h hne).1 hshift]
  · intro hm
    exact ⟨m, hm, h.ne, shift_of_lt h⟩

theorem mem_dropTracked_of_ge {a m : ℕ} {ks : List ℕ} (h : a ≤ m) :
    m ∈ dropTracked a ks ↔ m + 1 ∈ ks := by
  rw [mem_dropTracked_iff]
  constructor
  · rintro ⟨k, hk, hne, hshift⟩
    rwa [← (shift_eq_iff_of_ge h hne).1 hshift]
  · intro hm
    have hgt : a < m + 1 := Nat.lt_succ_of_le h
    exact ⟨m + 1, hm, hgt.ne', shift_of_gt hgt⟩

/-! ## What is not tracked -/

theorem filter_zipIdx_congr (l : List α) {ks ks' : List ℕ} {n n' : ℕ}
    (h : ∀ i < l.length, n' + i ∈ ks' ↔ n + i ∈ ks) :
    ((l.zipIdx n').filter fun p => p.2 ∉ ks').map Prod.fst =
      ((l.zipIdx n).filter fun p => p.2 ∉ ks).map Prod.fst := by
  induction l generalizing n n' with
  | nil => rfl
  | cons x l ih =>
    have hhead : n' ∈ ks' ↔ n ∈ ks := h 0 (Nat.zero_lt_succ _)
    have htail := @ih (n + 1) (n' + 1) fun i hi => by
      have hstep := h (i + 1) (Nat.succ_lt_succ hi)
      rwa [← Nat.add_assoc, ← Nat.add_assoc, Nat.add_right_comm n', Nat.add_right_comm n] at hstep
    rw [List.zipIdx_cons, List.zipIdx_cons]
    by_cases hn : n ∈ ks
    · rw [List.filter_cons_of_neg (by simpa using hhead.2 hn),
        List.filter_cons_of_neg (by simpa using hn), htail]
    · rw [List.filter_cons_of_pos (by simpa using fun hn' => hn (hhead.1 hn')),
        List.filter_cons_of_pos (by simpa using hn), List.map_cons, List.map_cons, htail]

/-- The deletion of a tracked entry leaves the others in their order. -/
theorem untracked_eraseIdx {l : List α} {ks : List ℕ} {a : ℕ} (ha : a ∈ ks) (hlt : a < l.length) :
    untracked (l.eraseIdx a) (dropTracked a ks) = untracked l ks := by
  obtain ⟨l₁, x, l₂, rfl, rfl⟩ : ∃ l₁ x l₂, l = l₁ ++ x :: l₂ ∧ a = l₁.length :=
    ⟨l.take a, l[a], l.drop (a + 1), by simp, by simp [hlt.le]⟩
  have hbefore := @filter_zipIdx_congr _ l₁ ks (dropTracked l₁.length ks) 0 0 fun i hi => by
    rw [Nat.zero_add, mem_dropTracked_of_lt hi]
  have hbehind := @filter_zipIdx_congr _ l₂ ks (dropTracked l₁.length ks) (l₁.length + 1) l₁.length
    fun i _ => by
      rw [mem_dropTracked_of_ge (Nat.le_add_right _ _), Nat.add_right_comm]
  rw [untracked, untracked, List.eraseIdx_append_of_length_le le_rfl, Nat.sub_self,
    List.eraseIdx_cons_zero, List.zipIdx_append, List.zipIdx_append, List.zipIdx_cons,
    List.filter_append, List.filter_append, List.map_append, List.map_append,
    List.filter_cons_of_neg (by simpa using ha), Nat.zero_add, hbefore, hbehind]

theorem untracked_append_singleton (l : List α) (ks : List ℕ) (x : α) :
    untracked (l ++ [x]) (ks ++ [l.length]) = untracked l ks := by
  have hbefore := @filter_zipIdx_congr _ l ks (ks ++ [l.length]) 0 0 fun i hi => by
    rw [List.mem_append, List.mem_singleton, Nat.zero_add]
    exact or_iff_left hi.ne
  rw [untracked, untracked, List.zipIdx_append, List.filter_append, List.map_append, hbefore]
  simp

end RagflowMineru.Library
