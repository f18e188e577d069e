import Mathlib.Algebra.Order.Group.Nat
import Mathlib.Data.List.Induction
import Mathlib.Data.List.TakeWhile
import Mathlib.Tactic.SplitIfs

/-!
# Outlines

A list of sections with levels is an outline: a section stands under those before
it that all sections in between, and itself, are deeper than.  A section that
nothing stands under is a leaf, and ends a path.
-/

namespace RagflowMineru.Library.Outline

variable {σ α : Type*} [LinearOrder α] (level : σ → α)

/-- The last section with those it stands under: the sections that all later ones are deeper
than. -/
def chain : List σ → List σ
  | [] => []
  | s :: later => if later.all (level s < level ·) then s :: chain later else chain later

/-- Nothing stands under the section in place `i`. -/
def isLeaf (l : List σ) (i : ℕ) : Bool :=
  match l[i]?, l[i + 1]? with
  | some s, some next => level next ≤ level s
  | _, _ => true

/-- The places of the leaves. -/
def leaves (l : List σ) : List ℕ :=
  (List.range l.length).filter (isLeaf level l)

/-- The paths to the leaves. -/
def paths (l : List σ) : List (List σ) :=
  (leaves level l).map fun i => chain level (l.take (i + 1))

/-- What holds of every section with those before it. -/
theorem forall_split_concat {P : List σ → σ → Prop} {l : List σ} {x : σ} :
    (∀ pre s post, l ++ [x] = pre ++ s :: post → P pre s) ↔
      (∀ pre s post, l = pre ++ s :: post → P pre s) ∧ P l x := by
  constructor
  · intro h
    refine ⟨fun pre s post heq => h pre s (post ++ [x]) ?_, h l x [] rfl⟩
    rw [heq, List.append_assoc, List.cons_append]
  · rintro ⟨hl, hx⟩ pre s post heq
    rcases post.eq_nil_or_concat with rfl | ⟨post, y, rfl⟩
    · obtain ⟨rfl, hs⟩ := List.append_inj' heq rfl
      obtain rfl := List.head_eq_of_cons_eq hs
      exact hx
    · rw [List.concat_eq_append, ← List.cons_append, ← List.append_assoc] at heq
      exact hl pre s post (List.append_inj' heq rfl).1

/-! ## Paths -/

theorem chain_concat (l : List σ) (s : σ) :
    chain level (l ++ [s]) = (chain level l).filter (level · < level s) ++ [s] := by
  induction l with
  | nil => rfl
  | cons a l ih =>
    simp only [List.cons_append, chain, List.all_append, List.all_cons, List.all_nil, Bool.and_true]
    by_cases hl : l.all (level a < level ·)
    · by_cases hs : level a < level s
      · simp [hl, hs, ih]
      · simp [hl, hs, ih]
    · simp [hl, ih]

variable {level}

theorem mem_of_mem_chain {l : List σ} {s : σ} (h : s ∈ chain level l) : s ∈ l := by
  induction l with
  | nil => exact h
  | cons a l ih =>
    rw [chain] at h
    split_ifs at h
    · rcases List.mem_cons.mp h with rfl | h
      · exact List.mem_cons_self
      · exact List.mem_cons_of_mem a (ih h)
    · exact List.mem_cons_of_mem a (ih h)

/-- Levels increase along a path. -/
theorem chain_pairwise (l : List σ) : (chain level l).Pairwise (level · < level ·) := by
  induction l with
  | nil => exact List.Pairwise.nil
  | cons a l ih =>
    rw [chain]
    split_ifs with hall
    · refine List.pairwise_cons.mpr ⟨fun s hs => ?_, ih⟩
      exact of_decide_eq_true (List.all_eq_true.mp hall s (mem_of_mem_chain hs))
    · exact ih

/-- A path ends with the last section. -/
theorem getLast?_chain (l : List σ) : (chain level l).getLast? = l.getLast? := by
  rcases l.eq_nil_or_concat with rfl | ⟨l, s, rfl⟩
  · rfl
  · rw [List.concat_eq_append, chain_concat, List.getLast?_concat, List.getLast?_concat]

/-- The nearest section of a smaller level is on the path. -/
theorem getLast?_filter_chain (l : List σ) (m : α) :
    ((chain level l).filter (level · < m)).getLast? = (l.filter (level · < m)).getLast? := by
  induction l using List.reverseRecOn with
  | nil => rfl
  | append_singleton l s ih =>
      rw [chain_concat, List.filter_append, List.filter_append]
      by_cases hs : level s < m
      · have hself : [s].filter (level · < m) = [s] := by simp [hs]
        rw [hself, List.getLast?_concat, List.getLast?_concat]
      · have hnone : [s].filter (level · < m) = [] := by simpa using hs
        rw [hnone, List.append_nil, List.append_nil, ← ih, List.filter_filter]
        congr 1
        apply List.filter_congr
        intro a _
        rw [← Bool.decide_and, decide_eq_decide]
        exact and_iff_left_of_imp fun ha => ha.trans_le (not_lt.mp hs)

variable (level)

theorem isLeaf_append {l : List σ} {i : ℕ} (h : i + 1 < l.length) (r : List σ) :
    isLeaf level (l ++ r) i = isLeaf level l i := by
  rw [isLeaf, isLeaf, List.getElem?_append_left (by omega), List.getElem?_append_left h]

theorem isLeaf_last (l : List σ) (s : σ) : isLeaf level (l ++ [s]) l.length = true := by
  simp [isLeaf]

theorem isLeaf_append_of_concat (l : List σ) (last s : σ) :
    isLeaf level (l ++ [last] ++ [s]) l.length = decide (level s ≤ level last) := by
  simp [isLeaf]

/-- The leaves before the last section. -/
theorem leaves_concat (l : List σ) (s : σ) : leaves level (l ++ [s]) =
    (List.range l.length).filter (isLeaf level (l ++ [s])) ++ [l.length] := by
  rw [leaves, List.length_append, List.length_singleton, List.range_succ, List.filter_append,
    List.filter_cons_of_pos (isLeaf_last level l s), List.filter_nil]

theorem paths_concat_eq (l : List σ) (s : σ) : paths level (l ++ [s]) =
    ((List.range l.length).filter (isLeaf level (l ++ [s]))).map
      (fun i => chain level (l.take (i + 1))) ++ [chain level (l ++ [s])] := by
  rw [paths, leaves_concat, List.map_append, List.map_singleton]
  congr 1
  · apply List.map_congr_left
    intro i hi
    have hlt := List.mem_range.mp (List.mem_filter.mp hi).1
    rw [List.take_append_of_le_length (by omega)]
  · rw [List.take_of_length_le (by simp)]

/-- A section that is deeper than the one before it goes on with its path, and another one starts
a path of its own. -/
theorem paths_concat_concat (l : List σ) (last s : σ) :
    paths level (l ++ [last] ++ [s]) =
      (if level last < level s then (paths level (l ++ [last])).dropLast
        else paths level (l ++ [last])) ++ [chain level (l ++ [last] ++ [s])] := by
  have hbefore : (List.range l.length).filter (isLeaf level (l ++ [last] ++ [s])) =
      (List.range l.length).filter (isLeaf level (l ++ [last])) := by
    apply List.filter_congr
    intro i hi
    have hlt := List.mem_range.mp hi
    exact isLeaf_append level (by simpa using hlt) [s]
  rw [paths_concat_eq level (l ++ [last]) s]
  congr 1
  have htake : ∀ i ∈ (List.range l.length).filter (isLeaf level (l ++ [last])),
      chain level ((l ++ [last]).take (i + 1)) = chain level (l.take (i + 1)) := by
    intro i hi
    have hlt := List.mem_range.mp (List.mem_filter.mp hi).1
    rw [List.take_append_of_le_length (by omega)]
  rw [List.length_append, List.length_singleton, List.range_succ, List.filter_append, hbefore,
    List.map_append, List.map_congr_left htake, paths_concat_eq level l last]
  have hlast := isLeaf_append_of_concat level l last s
  split_ifs with hlevel
  · rw [List.filter_cons_of_neg (by rw [hlast]; simpa using hlevel), List.filter_nil, List.map_nil,
      List.append_nil, List.dropLast_concat]
  · rw [List.filter_cons_of_pos (by rw [hlast]; simpa using hlevel), List.filter_nil,
      List.map_singleton, List.take_of_length_le (by simp)]

theorem paths_singleton (s : σ) : paths level [s] = [[s]] := by
  have h := paths_concat_eq level [] s
  simpa [chain] using h

theorem mem_chain_concat (l : List σ) (s : σ) : s ∈ chain level (l ++ [s]) := by
  rw [chain_concat]
  simp

/-- No section is deeper than the last one of its path. -/
theorem level_le_of_mem_chain {l : List σ} {last s : σ} (h : s ∈ chain level (l ++ [last])) :
    level s ≤ level last := by
  rw [chain_concat, List.mem_append] at h
  rcases h with h | h
  · exact (of_decide_eq_true (List.mem_filter.mp h).2).le
  · rw [List.mem_singleton.mp h]

/-- Every section is on a path. -/
theorem exists_path {l : List σ} {s : σ} (h : s ∈ l) : ∃ p ∈ paths level l, s ∈ p := by
  induction l using List.reverseRecOn with
  | nil => simp at h
  | append_singleton l x ih =>
    rcases List.mem_append.mp h with h | h
    · obtain ⟨p, hp, hs⟩ := ih h
      rcases l.eq_nil_or_concat with rfl | ⟨l, last, rfl⟩
      · simp at h
      · rw [List.concat_eq_append] at hp ⊢
        rw [paths_concat_concat]
        split_ifs with hlevel
        · rw [paths_concat_eq] at hp ⊢
          rw [List.dropLast_concat]
          rcases List.mem_append.mp hp with hp | hp
          · exact ⟨p, List.mem_append_left _ hp, hs⟩
          · obtain rfl := List.mem_singleton.mp hp
            refine ⟨_, List.mem_append_right _ (List.mem_singleton.mpr rfl), ?_⟩
            rw [chain_concat]
            have hlt := (level_le_of_mem_chain level hs).trans_lt hlevel
            exact List.mem_append_left _ (List.mem_filter.mpr ⟨hs, decide_eq_true hlt⟩)
        · exact ⟨p, List.mem_append_left _ hp, hs⟩
    · obtain rfl := List.mem_singleton.mp h
      refine ⟨_, ?_, mem_chain_concat level l s⟩
      rw [paths_concat_eq]
      simp

end RagflowMineru.Library.Outline
