import Mathlib.Logic.Relation
import Mathlib.Algebra.BigOperators.Group.List.Basic
import Mathlib.Algebra.Order.BigOperators.Group.List
import Mathlib.Algebra.Order.Ring.Nat
import Mathlib.Algebra.Group.Action.Defs

/-!
# Unfolding a graph through a queue

A queue starts with the successors of a root.  Visiting its head appends the
successors of the head, and nothing is recorded as seen.  The visit that came
just before is the *feeder* of the head.  The question settled here is when the
feeders of a complete unfolding are predecessors.
-/

namespace RagflowMineru.Library

variable {α : Type*}

/-- `visits` lists the visits made so far with their feeders, `current` is the
last one (the root at first), and `pending` is the queue. -/
inductive Unfolds (succ : α → List α) (root : α) :
    List (α × α) → α → List α → Prop
  | start : Unfolds succ root [] root (succ root)
  | visit {visits : List (α × α)} {current next : α} {rest : List α}
      (h : Unfolds succ root visits current (next :: rest)) :
      Unfolds succ root (visits ++ [(current, next)]) next
        (rest ++ succ next)

/-- No node that can be reached has two entries in its list of successors. -/
def IsChain (succ : α → List α) (root : α) : Prop :=
  ∀ x, Relation.ReflTransGen (fun a b => b ∈ succ a) root x →
    (succ x).length ≤ 1

namespace Unfolds

variable {succ : α → List α} {root current : α} {visits : List (α × α)}
  {pending : List α}

/-- What has been appended to the queue has been visited or is still in it. -/
theorem sum_length (h : Unfolds succ root visits current pending) :
    (visits.map fun v => (succ v.1).length).sum + (succ current).length =
      visits.length + pending.length := by
  induction h with
  | start => simp
  | @visit visits current next rest _ ih =>
      simp only [List.map_append, List.map_cons, List.map_nil,
        List.sum_append, List.sum_cons, List.sum_nil, List.length_append,
        List.length_cons, List.length_nil] at ih ⊢
      omega

/-- The root and every visit feed the next visit, and the last one is
current. -/
theorem mem_feeders (h : Unfolds succ root visits current pending) {x : α}
    (hx : x = root ∨ x ∈ visits.map Prod.snd) :
    x = current ∨ x ∈ visits.map Prod.fst := by
  induction h generalizing x with
  | start => simpa using hx
  | @visit visits current next rest _ ih =>
      simp only [List.map_append, List.map_cons, List.map_nil,
        List.mem_append, List.mem_singleton] at hx ⊢
      rcases hx with hroot | hvisit | hnext
      · exact Or.inr (ih (Or.inl hroot)).symm
      · exact Or.inr (ih (Or.inr hvisit)).symm
      · exact Or.inl hnext

/-- Visited and pending nodes are reachable. -/
theorem reachable (h : Unfolds succ root visits current pending) {x : α}
    (hx : x = current ∨ x ∈ pending) :
    Relation.ReflTransGen (fun a b => b ∈ succ a) root x := by
  induction h generalizing x with
  | start =>
      rcases hx with rfl | hx
      · exact .refl
      · exact .single hx
  | @visit visits current next rest _ ih =>
      have hnext := ih (Or.inr (List.mem_cons_self (a := next) (l := rest)))
      rcases hx with rfl | hx
      · exact hnext
      · rcases List.mem_append.mp hx with hrest | hsucc
        · exact ih (Or.inr (List.mem_cons_of_mem next hrest))
        · exact hnext.tail hsucc

/-- The successors of the nodes visited have been visited or are pending. -/
theorem closed (h : Unfolds succ root visits current pending) {x y : α}
    (hx : x = root ∨ x ∈ visits.map Prod.snd) (hy : y ∈ succ x) :
    y ∈ visits.map Prod.snd ∨ y ∈ pending := by
  induction h generalizing x with
  | start =>
      rcases hx with rfl | hx
      · exact Or.inr hy
      · simp at hx
  | @visit visits current next rest _ ih =>
      have hold : y ∈ visits.map Prod.snd ∨ y ∈ next :: rest →
          y ∈ (visits ++ [(current, next)]).map Prod.snd ∨
            y ∈ rest ++ succ next := by
        intro hmem
        rcases hmem with hmem | hmem
        · exact Or.inl (by simp [List.mem_map.mp hmem])
        · rcases List.mem_cons.mp hmem with rfl | hmem
          · exact Or.inl (by simp)
          · exact Or.inr (List.mem_append_left _ hmem)
      simp only [List.map_append, List.map_cons, List.map_nil,
        List.mem_append, List.mem_singleton] at hx
      rcases hx with hroot | hvisit | rfl
      · exact hold (ih (Or.inl hroot) hy)
      · exact hold (ih (Or.inr hvisit) hy)
      · exact Or.inr (List.mem_append_right _ hy)

/-- Once the queue is empty, everything reachable has been visited. -/
theorem visited_of_reachable (h : Unfolds succ root visits current [])
    {x : α} (hx : Relation.ReflTransGen (fun a b => b ∈ succ a) root x) :
    x = root ∨ x ∈ visits.map Prod.snd := by
  induction hx with
  | refl => exact Or.inl rfl
  | tail _ hstep ih =>
      rcases h.closed ih hstep with hmem | hmem
      · exact Or.inr hmem
      · simp at hmem

/-- In a chain the queue holds the successors of the current node alone, so
every visit is fed by a predecessor. -/
theorem fed_of_isChain (hchain : IsChain succ root)
    (h : Unfolds succ root visits current pending) :
    pending = succ current ∧ ∀ v ∈ visits, v.2 ∈ succ v.1 := by
  induction h with
  | start => simp
  | @visit visits current next rest h ih =>
      obtain ⟨hpending, hvisits⟩ := ih
      have hlength : (next :: rest).length ≤ 1 := by
        rw [hpending]
        exact hchain current (h.reachable (Or.inl rfl))
      have hrest : rest = [] := by
        apply List.eq_nil_of_length_eq_zero
        simpa using hlength
      refine ⟨by simp [hrest], ?_⟩
      intro v hv
      rcases List.mem_append.mp hv with hv | hv
      · exact hvisits v hv
      · rw [List.mem_singleton.mp hv, ← hpending]
        exact List.mem_cons_self

/-- If every feeder of a complete unfolding is a predecessor, every feeder has
exactly one successor: there are as many successors as visits, and no feeder is
without one. -/
theorem length_of_fed (h : Unfolds succ root visits current [])
    (hfed : ∀ v ∈ visits, v.2 ∈ succ v.1) :
    succ current = [] ∧ ∀ v ∈ visits, (succ v.1).length = 1 := by
  have hsum := h.sum_length
  have hone : ∀ v ∈ visits, 1 ≤ (succ v.1).length := by
    intro v hv
    exact List.length_pos_of_mem (hfed v hv)
  have hle : (visits.map fun _ => 1).sum ≤
      (visits.map fun v => (succ v.1).length).sum :=
    List.sum_le_sum hone
  simp only [List.map_const', List.sum_replicate, smul_eq_mul, mul_one,
    List.length_nil, add_zero] at hle hsum
  constructor
  · apply List.eq_nil_of_length_eq_zero
    omega
  · intro v hv
    by_contra hne
    have hlt : (visits.map fun _ => 1).sum <
        (visits.map fun v => (succ v.1).length).sum :=
      List.sum_lt_sum _ _ hone
        ⟨v, hv, lt_of_le_of_ne (hone v hv) (Ne.symm hne)⟩
    simp only [List.map_const', List.sum_replicate, smul_eq_mul,
      mul_one] at hlt
    omega

/-- The visits of a complete unfolding are fed by predecessors exactly when
the graph below the root is a chain. -/
theorem fed_iff_isChain (h : Unfolds succ root visits current []) :
    (∀ v ∈ visits, v.2 ∈ succ v.1) ↔ IsChain succ root := by
  constructor
  · intro hfed x hx
    obtain ⟨hlast, hfeeders⟩ := h.length_of_fed hfed
    rcases h.mem_feeders (h.visited_of_reachable hx) with rfl | hmem
    · simp [hlast]
    · obtain ⟨v, hv, rfl⟩ := List.mem_map.mp hmem
      exact (hfeeders v hv).le
  · intro hchain
    exact (h.fed_of_isChain hchain).2

end Unfolds

end RagflowMineru.Library
