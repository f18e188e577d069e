import Mathlib.Data.List.Nodup

/-!
# Loops that carry a value from one item to the next

A loop goes through items with a value, by which it tells whether to keep what an item
has, and which each item may change for those behind it.  What is kept depends on each
item alone exactly if no list of other items makes a difference to it.
-/

namespace RagflowMineru.Library

variable {α σ δ : Type*}

section

variable (next : σ → α → σ) (keep : σ → α → Bool)

/-- What the items have that are kept. -/
def gather : σ → List (α × List δ) → List δ
  | _, [] => []
  | s, (a, ds) :: items => (if keep s a then ds else []) ++ gather (next s a) items

/-- What is kept depends on each item alone. -/
def Independent (δ : Type*) (s : σ) : Prop :=
  ∃ kept : α → Bool, ∀ items : List (α × List δ), (items.map Prod.fst).Nodup →
    gather next keep s items = items.flatMap fun item => if kept item.1 then item.2 else []

end

variable {next : σ → α → σ} {keep : σ → α → Bool}

theorem gather_append (s : σ) (items rest : List (α × List δ)) :
    gather next keep s (items ++ rest) =
      gather next keep s items ++ gather next keep ((items.map Prod.fst).foldl next s) rest := by
  induction items generalizing s with
  | nil => rfl
  | cons item items ih => simp [gather, ih]

theorem gather_of_nothing (s : σ) (pre : List α) :
    gather next keep s (pre.map fun a => (a, ([] : List δ))) = [] := by
  induction pre generalizing s with
  | nil => rfl
  | cons a pre ih => simp [gather, ih]

/-- What is kept of the items is what is kept of each alone if the items in front of it make no
difference. -/
theorem gather_eq_flatMap {s : σ} {kept : α → Bool} {items : List (α × List δ)}
    (h : ∀ pre a post, items.map Prod.fst = pre ++ a :: post →
      keep (pre.foldl next s) a = kept a) :
    gather next keep s items = items.flatMap fun item => if kept item.1 then item.2 else [] := by
  induction items generalizing s with
  | nil => rfl
  | cons item items ih =>
      have hitem := h [] item.1 (items.map Prod.fst) rfl
      have hitems := @ih (next s item.1) fun pre a post heq =>
        h (item.1 :: pre) a post (by rw [List.map_cons, heq, List.cons_append])
      rw [List.foldl_nil] at hitem
      rw [gather, hitem, hitems, List.flatMap_cons]

theorem independent_iff [Inhabited δ] {s : σ} :
    Independent next keep δ s ↔
      ∀ pre a, (pre ++ [a]).Nodup → keep (pre.foldl next s) a = keep s a := by
  constructor
  · rintro ⟨kept, hkept⟩
    have hvalue : ∀ pre a, (pre ++ [a]).Nodup → keep (pre.foldl next s) a = kept a := by
      intro pre a hnodup
      have hfst : (pre.map fun b => (b, ([] : List δ))).map Prod.fst = pre := by
        rw [List.map_map]
        exact List.map_id pre
      have hitems := hkept ((pre.map fun b => (b, [])) ++ [(a, [default])]) (by
        rw [List.map_append, hfst]
        exact hnodup)
      have hnothing : ((pre.map fun b => (b, ([] : List δ))).flatMap fun item =>
          if kept item.1 then item.2 else []) = [] := by
        rw [List.flatMap_map]
        simp
      rw [gather_append, gather_of_nothing, hfst, gather, gather, List.flatMap_append, hnothing,
        List.flatMap_singleton] at hitems
      revert hitems
      cases keep (pre.foldl next s) a <;> cases kept a <;> simp
    intro pre a hnodup
    exact (hvalue pre a hnodup).trans (hvalue [] a (List.nodup_singleton a)).symm
  · intro h
    refine ⟨keep s, fun items hnodup => gather_eq_flatMap fun pre a post heq => h pre a ?_⟩
    rw [heq, List.append_cons] at hnodup
    exact hnodup.of_append_left

end RagflowMineru.Library
