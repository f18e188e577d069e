import Mathlib.Data.List.Induction
import Mathlib.Logic.Relation

/-!
# Gathering contents

Cells in a row hold contents, or are passed over, or bar the way.  A move takes
all that a holder has to the end of the holder before it, over cells that are
passed over only.  However many moves are made, the contents in their order
stay what they were, also between the barriers.
-/

namespace RagflowMineru.Library

inductive CellKind where
  | holder | passed | barrier
  deriving DecidableEq

variable {α : Type*}

abbrev Cells (α : Type*) := List (CellKind × List α)

/-- The contents of all holders, in order. -/
def contents (s : Cells α) : List α := s.flatMap fun c => if c.1 = .holder then c.2 else []

/-- One move. -/
inductive Move : Cells α → Cells α → Prop where
  | mk (before between after : Cells α) (a b : List α) (h : ∀ c ∈ between, c.1 = .passed) :
      Move (before ++ (.holder, a) :: (between ++ (.holder, b) :: after))
        (before ++ (.holder, a ++ b) :: (between ++ (.holder, []) :: after))

abbrev Moves (s t : Cells α) : Prop := Relation.ReflTransGen Move s t

variable {s t : Cells α}

@[simp]
theorem contents_append (s t : Cells α) : contents (s ++ t) = contents s ++ contents t :=
  List.flatMap_append

@[simp]
theorem contents_holder (a : List α) (s : Cells α) :
    contents ((.holder, a) :: s) = a ++ contents s := by
  rw [contents, List.flatMap_cons]
  rfl

theorem contents_passed {s : Cells α} (h : ∀ c ∈ s, c.1 = .passed) : contents s = [] := by
  rw [contents, List.flatMap_eq_nil_iff]
  intro c hc
  rw [h c hc]
  rfl

theorem Move.kinds (h : Move s t) : t.map Prod.fst = s.map Prod.fst := by
  obtain ⟨before, between, after, a, b, -⟩ := h
  simp

theorem Move.contents (h : Move s t) : contents t = contents s := by
  obtain ⟨before, between, after, a, b, hpassed⟩ := h
  simp [contents_passed hpassed]

/-- What stands before a barrier keeps its contents. -/
theorem Move.before_barrier (h : Move s t) {k : ℕ} (hk : (s.map Prod.fst)[k]? = some .barrier) :
    Library.contents (t.take k) = Library.contents (s.take k) := by
  obtain ⟨before, between, after, a, b, hpassed⟩ := h
  rcases Nat.lt_or_ge before.length k with hlt | hle
  · obtain ⟨m, rfl⟩ := Nat.exists_eq_add_of_lt hlt
    have htake : ∀ (x : List α) (l : Cells α),
        (before ++ (.holder, x) :: l).take (before.length + m + 1) =
          before ++ (.holder, x) :: l.take m := by
      intro x l
      rw [Nat.add_assoc, List.take_length_add_append, List.take_succ_cons]
    have hfar : between.length < m := by
      by_contra hnear
      rw [List.map_append, List.getElem?_append_right (by simp only [List.length_map]; omega),
        List.length_map, List.map_cons, Nat.add_assoc, Nat.add_sub_cancel_left,
        List.getElem?_cons_succ, List.map_append] at hk
      rcases Nat.lt_or_eq_of_le (Nat.not_lt.mp hnear) with hm | hm
      · rw [List.getElem?_append_left (by simpa using hm), List.getElem?_map] at hk
        obtain ⟨c, hc, hkind⟩ := Option.map_eq_some_iff.mp hk
        rw [hpassed c (List.mem_of_getElem? hc)] at hkind
        exact absurd hkind (by decide)
      · rw [List.getElem?_append_right (by simp [hm]), List.length_map, hm, Nat.sub_self] at hk
        exact absurd hk (by simp)
    obtain ⟨j, rfl⟩ := Nat.exists_eq_add_of_lt hfar
    have hbetween : ∀ x : List α, (between ++ (.holder, x) :: after).take (between.length + j + 1) =
        between ++ (.holder, x) :: after.take j := by
      intro x
      rw [Nat.add_assoc, List.take_length_add_append, List.take_succ_cons]
    rw [htake, htake, hbetween, hbetween]
    simp [contents_passed hpassed]
  · rw [List.take_append_of_le_length hle, List.take_append_of_le_length hle]

theorem Moves.kinds (h : Moves s t) : t.map Prod.fst = s.map Prod.fst := by
  induction h with
  | refl => rfl
  | tail _ hmove ih => exact hmove.kinds.trans ih

theorem Moves.contents (h : Moves s t) : Library.contents t = Library.contents s := by
  induction h with
  | refl => rfl
  | tail _ hmove ih => exact hmove.contents.trans ih

theorem Moves.before_barrier (h : Moves s t) {k : ℕ}
    (hk : (s.map Prod.fst)[k]? = some .barrier) :
    Library.contents (t.take k) = Library.contents (s.take k) := by
  induction h with
  | refl => rfl
  | tail hmoves hmove ih =>
      rw [← Moves.kinds hmoves] at hk
      exact (hmove.before_barrier hk).trans ih

theorem exists_split_of_getElem? {β : Type*} {l : List β} {i : ℕ} {x : β} (h : l[i]? = some x) :
    ∃ before after, l = before ++ x :: after ∧ before.length = i := by
  obtain ⟨hlt, rfl⟩ := List.getElem?_eq_some_iff.mp h
  refine ⟨l.take i, l.drop (i + 1), ?_, List.length_take_of_le (Nat.le_of_lt hlt)⟩
  rw [← List.drop_eq_getElem_cons hlt, List.take_append_drop]

/-- A move, told by the places of the two holders. -/
theorem move_set {i j : ℕ} {a b : List α} (hi : s[i]? = some (.holder, a))
    (hj : s[j]? = some (.holder, b)) (hij : i < j)
    (h : ∀ k, i < k → k < j → ∃ c, s[k]? = some c ∧ c.1 = .passed) :
    Move s ((s.set i (.holder, a ++ b)).set j (.holder, [])) := by
  obtain ⟨before, rest, rfl, rfl⟩ := exists_split_of_getElem? hi
  obtain ⟨m, rfl⟩ := Nat.exists_eq_add_of_lt hij
  have hrest : ∀ n, (before ++ (.holder, a) :: rest)[before.length + n + 1]? = rest[n]? := by
    intro n
    rw [List.getElem?_append_right (by omega), Nat.add_assoc, Nat.add_sub_cancel_left,
      List.getElem?_cons_succ]
  rw [hrest] at hj
  obtain ⟨between, after, rfl, rfl⟩ := exists_split_of_getElem? hj
  have hset : ((before ++ (.holder, a) :: (between ++ (.holder, b) :: after)).set before.length
      (.holder, a ++ b)).set (before.length + between.length + 1) (.holder, []) =
      before ++ (.holder, a ++ b) :: (between ++ (.holder, []) :: after) := by
    rw [List.set_append_right _ _ (Nat.le_refl _), Nat.sub_self, List.set_cons_zero,
      List.set_append_right _ _ (by omega), Nat.add_assoc, Nat.add_sub_cancel_left,
      List.set_cons_succ, List.set_append_right _ _ (Nat.le_refl _), Nat.sub_self,
      List.set_cons_zero]
  rw [hset]
  refine Move.mk before between after a b ?_
  intro c hc
  obtain ⟨n, hn, rfl⟩ := List.mem_iff_getElem.mp hc
  obtain ⟨c', hc', hkind⟩ := h (before.length + n + 1) (by omega) (by omega)
  rw [hrest, List.getElem?_append_left hn, List.getElem?_eq_getElem hn] at hc'
  rw [Option.some.inj hc']
  exact hkind

end RagflowMineru.Library
