import Mathlib.Data.List.Basic

/-!
# The parts between separators, and runs

A text is cut at every separator, and empty parts are left out.  Runs of separators
therefore count as one, and joining texts by a separator joins their parts.  Another
way to cut a text is into the longest runs of entries that belong to the first.
-/

namespace RagflowMineru.Library

variable {α : Type*}

/-- A text as a part, unless it is empty. -/
def single (t : List α) : List (List α) := if t = [] then [] else [t]

@[simp] theorem single_nil : single ([] : List α) = [] := rfl

theorem single_of_ne {t : List α} (h : t ≠ []) : single t = [t] := if_neg h

theorem mem_single_iff {p t : List α} : p ∈ single t ↔ p = t ∧ t ≠ [] := by
  by_cases h : t = []
  · simp [single, h]
  · simp [single, h]

variable [DecidableEq α]

/-- The parts of a text behind the run that is already read. -/
def partsFrom (c : α) : List α → List α → List (List α)
  | run, [] => single run
  | run, a :: s => if a = c then single run ++ partsFrom c [] s else partsFrom c (run ++ [a]) s

def parts (c : α) (s : List α) : List (List α) := partsFrom c [] s

/-- Every run of separators becomes one separator. -/
def collapse (c : α) : List α → List α
  | [] => []
  | a :: s => if a = c ∧ s.head? = some c then collapse c s else a :: collapse c s

variable {c : α}

@[simp] theorem parts_nil : parts c [] = [] := rfl

theorem partsFrom_append_cons (run s t : List α) :
    partsFrom c run (s ++ c :: t) = partsFrom c run s ++ parts c t := by
  induction s generalizing run with
  | nil => simp [partsFrom, parts]
  | cons a s ih =>
      rw [List.cons_append, partsFrom, partsFrom]
      by_cases h : a = c
      · rw [if_pos h, if_pos h, ih, List.append_assoc]
      · rw [if_neg h, if_neg h, ih]

theorem parts_append_cons (s t : List α) : parts c (s ++ c :: t) = parts c s ++ parts c t :=
  partsFrom_append_cons [] s t

theorem partsFrom_of_notMem {run s : List α} (h : c ∉ s) :
    partsFrom c run s = single (run ++ s) := by
  induction s generalizing run with
  | nil => rw [partsFrom, List.append_nil]
  | cons a s ih =>
      rw [List.mem_cons, not_or] at h
      rw [partsFrom, if_neg (Ne.symm h.1), ih h.2, List.append_assoc, List.singleton_append]

theorem parts_of_notMem {s : List α} (h : c ∉ s) : parts c s = single s := partsFrom_of_notMem h

/-- Parts are not empty and have no separators. -/
theorem of_mem_partsFrom {run s p : List α} (hrun : c ∉ run) (hp : p ∈ partsFrom c run s) :
    p ≠ [] ∧ c ∉ p := by
  induction s generalizing run with
  | nil =>
      obtain ⟨rfl, hne⟩ := mem_single_iff.mp hp
      exact ⟨hne, hrun⟩
  | cons a s ih =>
      rw [partsFrom] at hp
      split_ifs at hp with h
      · obtain hp | hp := List.mem_append.mp hp
        · obtain ⟨rfl, hne⟩ := mem_single_iff.mp hp
          exact ⟨hne, hrun⟩
        · exact ih List.not_mem_nil hp
      · refine ih (fun hmem => ?_) hp
        obtain hmem | hmem := List.mem_append.mp hmem
        · exact hrun hmem
        · exact h (List.mem_singleton.mp hmem).symm

theorem of_mem_parts {s p : List α} (hp : p ∈ parts c s) : p ≠ [] ∧ c ∉ p :=
  of_mem_partsFrom List.not_mem_nil hp

theorem partsFrom_ne_nil {run s : List α} (hrun : run ≠ []) : partsFrom c run s ≠ [] := by
  induction s generalizing run with
  | nil =>
      rw [partsFrom, single_of_ne hrun]
      exact List.cons_ne_nil _ _
  | cons a s ih =>
      rw [partsFrom]
      split_ifs with h
      · rw [single_of_ne hrun]
        exact List.cons_ne_nil _ _
      · exact ih (List.append_ne_nil_of_left_ne_nil hrun _)

/-- Only separators have no parts. -/
theorem parts_eq_nil_iff {s : List α} : parts c s = [] ↔ ∀ a ∈ s, a = c := by
  induction s with
  | nil => simp
  | cons a s ih =>
      rw [parts, partsFrom, List.forall_mem_cons]
      split_ifs with h
      · rw [single_nil, List.nil_append]
        exact ih.trans (and_iff_right h).symm
      · exact iff_of_false (partsFrom_ne_nil (List.cons_ne_nil _ _)) fun hall => h hall.1

theorem parts_intercalate (l : List (List α)) :
    parts c ([c].intercalate l) = l.flatMap (parts c) := by
  induction l with
  | nil => rfl
  | cons t l ih =>
      cases l with
      | nil => simp [List.intercalate]
      | cons t' l =>
          have hcons : [c].intercalate (t :: t' :: l) = t ++ c :: [c].intercalate (t' :: l) := by
            simp [List.intercalate]
          rw [hcons, parts_append_cons, ih]
          rfl

/-- The parts hold every entry but the separators. -/
theorem flatten_parts (s : List α) : (parts c s).flatten = s.filter (· ≠ c) := by
  have hrun : ∀ run : List α, (partsFrom c run s).flatten = run ++ s.filter (· ≠ c) := by
    induction s with
    | nil =>
      intro run
      by_cases hne : run = []
      · rw [hne]
        rfl
      · simp [partsFrom, single_of_ne hne]
    | cons a s ih =>
      intro run
      rw [partsFrom, List.filter_cons]
      by_cases h : a = c
      · by_cases hne : run = []
        · simp [h, hne, ih]
        · simp [h, single_of_ne hne, ih]
      · simp [h, ih]
  exact hrun []

/-- Parts have no further parts. -/
theorem flatMap_parts_self {l : List (List α)} (h : ∀ t ∈ l, t ≠ [] ∧ c ∉ t) :
    l.flatMap (parts c) = l := by
  induction l with
  | nil => rfl
  | cons t l ih =>
      obtain ⟨ht, hl⟩ := List.forall_mem_cons.mp h
      rw [List.flatMap_cons, parts_of_notMem ht.2, single_of_ne ht.1, ih hl,
        List.singleton_append]

theorem partsFrom_collapse (run s : List α) :
    partsFrom c run (collapse c s) = partsFrom c run s := by
  induction s generalizing run with
  | nil => rfl
  | cons a s ih =>
      rw [collapse]
      split_ifs with h
      · obtain ⟨rfl, hhead⟩ := h
        cases s with
        | nil => cases hhead
        | cons b s =>
            obtain rfl : b = a := Option.some.inj hhead
            rw [ih]
            simp [partsFrom]
      · rw [partsFrom, partsFrom]
        split_ifs with ha
        · rw [ih]
        · exact ih _

theorem parts_collapse (s : List α) : parts c (collapse c s) = parts c s :=
  partsFrom_collapse [] s

/-! ## Runs -/

section Runs

variable {β : Type*} {same : β → β → Bool}

/-- The runs of a text behind the run that is already read, which begins with `a`. -/
def runsFrom (same : β → β → Bool) (a : β) (run : List β) : List β → List (List β)
  | [] => [run]
  | b :: s => if same a b then runsFrom same a (run ++ [b]) s else run :: runsFrom same b [b] s

def runs (same : β → β → Bool) : List β → List (List β)
  | [] => []
  | a :: s => runsFrom same a [a] s

theorem flatten_runsFrom (a : β) (run s : List β) :
    (runsFrom same a run s).flatten = run ++ s := by
  induction s generalizing a run with
  | nil => simp [runsFrom]
  | cons b s ih =>
      rw [runsFrom]
      split_ifs with h
      · rw [ih, List.append_assoc, List.singleton_append]
      · rw [List.flatten_cons, ih, List.singleton_append]

@[simp] theorem flatten_runs (s : List β) : (runs same s).flatten = s := by
  cases s with
  | nil => rfl
  | cons a s => exact flatten_runsFrom a [a] s

/-- A run is its first entry and others that belong to it. -/
theorem of_mem_runsFrom {a : β} {run s t : List β} {u : List β} (hrun : run = a :: u)
    (hu : ∀ b ∈ u, same a b) (ht : t ∈ runsFrom same a run s) :
    ∃ b v, t = b :: v ∧ ∀ c ∈ v, same b c := by
  induction s generalizing a run u with
  | nil =>
      obtain rfl := List.mem_singleton.mp ht
      exact ⟨a, u, hrun, hu⟩
  | cons b s ih =>
      rw [runsFrom] at ht
      split_ifs at ht with h
      · refine @ih a (run ++ [b]) (u ++ [b]) (by rw [hrun]; rfl) (fun c hc => ?_) ht
        obtain hc | hc := List.mem_append.mp hc
        · exact hu c hc
        · rwa [List.mem_singleton.mp hc]
      · obtain rfl | ht := List.mem_cons.mp ht
        · exact ⟨a, u, hrun, hu⟩
        · exact @ih b [b] [] rfl (fun c hc => (List.not_mem_nil hc).elim) ht

theorem of_mem_runs {s t : List β} (ht : t ∈ runs same s) :
    ∃ b v, t = b :: v ∧ ∀ c ∈ v, same b c := by
  cases s with
  | nil => exact (List.not_mem_nil ht).elim
  | cons a s => exact of_mem_runsFrom rfl (fun c hc => (List.not_mem_nil hc).elim) ht

end Runs

end RagflowMineru.Library
