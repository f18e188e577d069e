import Mathlib.Data.List.Perm.Basic
import Mathlib.Data.List.Pairwise
import Mathlib.Data.Nat.Basic
import Mathlib.Order.Basic

/-!
# Runs of filled rows

The filled rows of a page fall into runs, with at least one row that is not filled between one run
and the next.  What extends over filled rows only lies in one run.  When the rows are those that
some items extend over, every run begins with an item, every item is in the run that it begins in,
and a row that is not filled parts the runs.
-/

namespace RagflowMineru.Library

/-- Runs, each from its first row to the row behind its last one. -/
structure IsRuns (filled : ℕ → Prop) (runs : List (ℕ × ℕ)) : Prop where
  lt : ∀ r ∈ runs, r.1 < r.2
  apart : runs.Pairwise fun r s => r.2 < s.1
  filled_iff : ∀ k, filled k ↔ ∃ r ∈ runs, r.1 ≤ k ∧ k < r.2

/-- The runs of increasing rows, when a run from `first` to `last` is known. -/
def filledRuns : ℕ → ℕ → List ℕ → List (ℕ × ℕ)
  | first, last, [] => [(first, last + 1)]
  | first, last, k :: rows =>
      if last + 1 < k then (first, last + 1) :: filledRuns k k rows else filledRuns first k rows

theorem le_of_mem_filledRuns {first last : ℕ} {rows : List ℕ} (hfirst : first ≤ last)
    (hsorted : (last :: rows).Pairwise (· < ·)) :
    ∀ r ∈ filledRuns first last rows, first ≤ r.1 := by
  induction rows generalizing first last with
  | nil =>
      intro r hr
      rw [List.mem_singleton.mp hr]
  | cons k rows ih =>
      obtain ⟨hlast, hrows⟩ := List.pairwise_cons.mp hsorted
      have hk := hlast k List.mem_cons_self
      rw [filledRuns]
      split_ifs
      · intro r hr
        rcases List.mem_cons.mp hr with rfl | hr
        · exact le_rfl
        · exact (hfirst.trans hk.le).trans (ih le_rfl hrows r hr)
      · exact ih (hfirst.trans hk.le) hrows

theorem isRuns_filledRuns {first last : ℕ} {rows : List ℕ} (hfirst : first ≤ last)
    (hsorted : (last :: rows).Pairwise (· < ·)) :
    IsRuns (fun k => (first ≤ k ∧ k ≤ last) ∨ k ∈ rows) (filledRuns first last rows) := by
  induction rows generalizing first last with
  | nil =>
      refine ⟨?_, List.pairwise_singleton _ _, fun k => ?_⟩
      · intro r hr
        rw [List.mem_singleton.mp hr]
        exact Nat.lt_succ_of_le hfirst
      · simp only [filledRuns, List.mem_singleton, exists_eq_left, List.not_mem_nil, or_false,
          Nat.lt_succ_iff]
  | cons k rows ih =>
      obtain ⟨hlast, hrows⟩ := List.pairwise_cons.mp hsorted
      have hk := hlast k List.mem_cons_self
      rw [filledRuns]
      split_ifs with hgap
      · have hruns := ih le_rfl hrows
        refine ⟨?_, ?_, fun j => ?_⟩
        · intro r hr
          rcases List.mem_cons.mp hr with rfl | hr
          · exact Nat.lt_succ_of_le hfirst
          · exact hruns.lt r hr
        · refine List.pairwise_cons.mpr ⟨fun r hr => ?_, hruns.apart⟩
          exact lt_of_lt_of_le hgap (le_of_mem_filledRuns le_rfl hrows r hr)
        · rw [List.exists_mem_cons_iff, ← hruns.filled_iff, List.mem_cons, Nat.lt_succ_iff]
          have hself : (k ≤ j ∧ j ≤ k) ↔ j = k := by omega
          rw [hself]
      · have hruns := ih (hfirst.trans hk.le) hrows
        refine ⟨hruns.lt, hruns.apart, fun j => ?_⟩
        rw [← hruns.filled_iff, List.mem_cons]
        have hjoin : (first ≤ j ∧ j ≤ last) ∨ j = k ↔ first ≤ j ∧ j ≤ k := by omega
        rw [← hjoin, or_assoc]

namespace IsRuns

variable {filled : ℕ → Prop} {runs : List (ℕ × ℕ)}

variable (h : IsRuns filled runs)

include h

theorem apart_of_ne {r s : ℕ × ℕ} (hr : r ∈ runs) (hs : s ∈ runs) (hne : r ≠ s) :
    r.2 < s.1 ∨ s.2 < r.1 := by
  have hsymm : Std.Symm fun r s : ℕ × ℕ => r.2 < s.1 ∨ s.2 < r.1 := ⟨fun _ _ h => h.symm⟩
  have happart : runs.Pairwise fun r s => r.2 < s.1 ∨ s.2 < r.1 := h.apart.imp Or.inl
  exact happart.forall hr hs hne

theorem eq_of_mem {r s : ℕ × ℕ} {k : ℕ} (hr : r ∈ runs) (hs : s ∈ runs)
    (hrk : r.1 ≤ k ∧ k < r.2) (hsk : s.1 ≤ k ∧ k < s.2) : r = s := by
  by_contra hne
  rcases h.apart_of_ne hr hs hne with hlt | hlt <;> omega

/-- The row behind a run is not filled. -/
theorem not_filled_end {r : ℕ × ℕ} (hr : r ∈ runs) : ¬ filled r.2 := by
  intro hfilled
  obtain ⟨s, hs, hsr⟩ := (h.filled_iff _).mp hfilled
  have hlt := h.lt r hr
  have hne : r ≠ s := by
    rintro rfl
    omega
  rcases h.apart_of_ne hr hs hne with hlt | hlt <;> omega

/-- What is filled throughout and begins in a run ends in it. -/
theorem end_le {r : ℕ × ℕ} (hr : r ∈ runs) {start stop : ℕ} (hstart : r.1 ≤ start ∧ start < r.2)
    (hfilled : ∀ k, start ≤ k → k < stop → filled k) : stop ≤ r.2 := by
  by_contra hlt
  exact h.not_filled_end hr (hfilled r.2 hstart.2.le (not_le.mp hlt))

end IsRuns

/-! ## Items in runs -/

section Items

variable {α : Type*} {start stop : α → ℕ} {items : List α} {runs : List (ℕ × ℕ)}

/-- An item extends over the row. -/
def Covered (start stop : α → ℕ) (items : List α) (k : ℕ) : Prop :=
  ∃ a ∈ items, start a ≤ k ∧ k < stop a

/-- The items that begin in a run. -/
def beginningIn (start : α → ℕ) (items : List α) (r : ℕ × ℕ) : List α :=
  items.filter fun a => r.1 ≤ start a && start a < r.2

theorem mem_beginningIn {r : ℕ × ℕ} {a : α} :
    a ∈ beginningIn start items r ↔ a ∈ items ∧ r.1 ≤ start a ∧ start a < r.2 := by
  simp [beginningIn]

/-- Runs that every item begins in part the items. -/
theorem flatMap_beginningIn_perm (hapart : runs.Pairwise fun r s => r.2 < s.1)
    (hruns : ∀ a ∈ items, ∃ r ∈ runs, r.1 ≤ start a ∧ start a < r.2) :
    (runs.flatMap (beginningIn start items)).Perm items := by
  induction runs generalizing items with
  | nil =>
      have hnil : items = [] := by
        rw [List.eq_nil_iff_forall_not_mem]
        intro a ha
        obtain ⟨r, hr, -⟩ := hruns a ha
        cases hr
      rw [hnil]
      rfl
  | cons r runs ih =>
      obtain ⟨hr, hapart⟩ := List.pairwise_cons.mp hapart
      let inRun : α → Bool := fun a => r.1 ≤ start a && start a < r.2
      have hrest : ∀ s ∈ runs, beginningIn start items s =
          beginningIn start (items.filter fun a => !inRun a) s := by
        intro s hs
        rw [beginningIn, beginningIn, List.filter_filter]
        refine List.filter_congr fun a _ => ?_
        have hlt := hr s hs
        by_cases hin : s.1 ≤ start a ∧ start a < s.2
        · have hnot : ¬ start a < r.2 := by omega
          simp [inRun, hin.1, hin.2, hnot]
        · simp [← Bool.not_eq_true, hin]
      have hbehind : ∀ a ∈ items.filter fun a => !inRun a,
          ∃ s ∈ runs, s.1 ≤ start a ∧ start a < s.2 := by
        intro a ha
        obtain ⟨ha, hnot⟩ := List.mem_filter.mp ha
        obtain ⟨s, hs, hin⟩ := hruns a ha
        rcases List.mem_cons.mp hs with rfl | hs
        · simp [inRun, hin] at hnot
        · exact ⟨s, hs, hin⟩
      rw [List.flatMap_cons, List.flatMap_congr hrest]
      exact ((ih hapart hbehind).append_left _).trans (List.filter_append_perm inRun items)

/-- A row in none of the runs parts them. -/
theorem exists_parted_runs {k : ℕ} (hapart : runs.Pairwise fun r s => r.2 < s.1)
    (hlt : ∀ r ∈ runs, r.1 < r.2) (hk : ∀ r ∈ runs, r.1 ≤ k → r.2 ≤ k) :
    ∃ front back, runs = front ++ back ∧ (∀ r ∈ front, r.2 ≤ k) ∧ ∀ r ∈ back, k < r.1 := by
  induction runs with
  | nil => exact ⟨[], [], rfl, by simp, by simp⟩
  | cons r runs ih =>
      obtain ⟨hbehind, hapart⟩ := List.pairwise_cons.mp hapart
      obtain ⟨hr, hlt⟩ := List.forall_mem_cons.mp hlt
      obtain ⟨hkr, hk⟩ := List.forall_mem_cons.mp hk
      by_cases hle : r.1 ≤ k
      · obtain ⟨front, back, rfl, hfront, hback⟩ := ih hapart hlt hk
        exact ⟨r :: front, back, rfl, List.forall_mem_cons.mpr ⟨hkr hle, hfront⟩, hback⟩
      · have hgt := not_le.mp hle
        refine ⟨[], r :: runs, rfl, by simp, List.forall_mem_cons.mpr ⟨hgt, fun s hs => ?_⟩⟩
        exact hgt.trans (hr.trans (hbehind s hs))

variable (h : IsRuns (Covered start stop items) runs) (hlt : ∀ a ∈ items, start a < stop a)

include h hlt

theorem exists_run {a : α} (ha : a ∈ items) : ∃ r ∈ runs, r.1 ≤ start a ∧ start a < r.2 :=
  (h.filled_iff _).mp ⟨a, ha, le_rfl, hlt a ha⟩

omit hlt in
/-- An item ends in the run that it begins in. -/
theorem stop_le {r : ℕ × ℕ} (hr : r ∈ runs) {a : α} (ha : a ∈ beginningIn start items r) :
    stop a ≤ r.2 := by
  obtain ⟨ha, hstart⟩ := mem_beginningIn.mp ha
  exact h.end_le hr hstart fun k hle hk => ⟨a, ha, hle, hk⟩

theorem beginningIn_ne_nil {r : ℕ × ℕ} (hr : r ∈ runs) : beginningIn start items r ≠ [] := by
  have hfirst := (h.filled_iff r.1).mpr ⟨r, hr, le_rfl, h.lt r hr⟩
  obtain ⟨a, ha, hle, hstop⟩ := hfirst
  obtain ⟨s, hs, has⟩ := exists_run h hlt ha
  have hend := stop_le h hs (mem_beginningIn.mpr ⟨ha, has⟩)
  obtain rfl := h.eq_of_mem hs hr ⟨has.1.trans hle, hstop.trans_le hend⟩ ⟨le_rfl, h.lt r hr⟩
  exact List.ne_nil_of_mem (mem_beginningIn.mpr ⟨ha, has⟩)

/-- Of more than one run, none has all items. -/
theorem length_beginningIn_lt {r : ℕ × ℕ} (hr : r ∈ runs) (hmany : runs.length ≠ 1) :
    (beginningIn start items r).length < items.length := by
  have hother : ∃ s ∈ runs, r ≠ s := by
    by_contra hall
    push Not at hall
    rcases runs with _ | ⟨s, _ | ⟨t, runs⟩⟩
    · cases hr
    · exact hmany rfl
    · have hst := (List.pairwise_cons.mp h.apart).1 t List.mem_cons_self
      have hlast := h.lt t (List.mem_cons_of_mem s List.mem_cons_self)
      rw [← hall s List.mem_cons_self, hall t (List.mem_cons_of_mem s List.mem_cons_self)] at hst
      exact absurd (hst.trans hlast) (lt_irrefl _)
  obtain ⟨s, hs, hne⟩ := hother
  obtain ⟨b, hb⟩ := List.exists_mem_of_ne_nil _ (beginningIn_ne_nil h hlt hs)
  obtain ⟨hb, hbs⟩ := mem_beginningIn.mp hb
  rw [beginningIn, List.length_filter_lt_length_iff_exists]
  refine ⟨b, hb, fun hbr => hne ?_⟩
  exact h.eq_of_mem hr hs (by simpa using hbr) hbs

theorem flatMap_beginningIn : (runs.flatMap (beginningIn start items)).Perm items :=
  flatMap_beginningIn_perm h.apart fun _ ha => exists_run h hlt ha

/-- A row that is not filled parts the items. -/
theorem exists_parted {k : ℕ} (hk : ¬ Covered start stop items k) :
    ∃ front back, runs = front ++ back ∧
      (front.flatMap (beginningIn start items)).Perm (items.filter fun a => stop a ≤ k) ∧
      (back.flatMap (beginningIn start items)).Perm (items.filter fun a => k < start a) := by
  have hnone : ∀ r ∈ runs, r.1 ≤ k → r.2 ≤ k := fun r hr hle => by
    by_contra hgt
    exact hk ((h.filled_iff k).mpr ⟨r, hr, hle, not_le.mp hgt⟩)
  obtain ⟨front, back, rfl, hfront, hback⟩ := exists_parted_runs h.apart h.lt hnone
  obtain ⟨hapart, hapart', -⟩ := List.pairwise_append.mp h.apart
  have hpart : ∀ (part : List (ℕ × ℕ)) (p : α → Bool), part.Pairwise (fun r s => r.2 < s.1) →
      (∀ r ∈ part, ∀ a ∈ beginningIn start items r, p a = true) →
      (∀ a ∈ items, p a = true → ∃ r ∈ part, r.1 ≤ start a ∧ start a < r.2) →
      (part.flatMap (beginningIn start items)).Perm (items.filter p) := by
    intro part p hpart hin hruns
    have hsame : ∀ r ∈ part, beginningIn start items r = beginningIn start (items.filter p) r := by
      intro r hr
      rw [beginningIn, beginningIn, List.filter_filter]
      refine List.filter_congr fun a ha => ?_
      cases hbegins : (decide (r.1 ≤ start a) && decide (start a < r.2)) with
      | false => rw [Bool.false_and]
      | true => rw [hin r hr a (List.mem_filter.mpr ⟨ha, hbegins⟩), Bool.true_and]
    rw [List.flatMap_congr hsame]
    refine flatMap_beginningIn_perm hpart fun a ha => ?_
    exact hruns a (List.mem_filter.mp ha).1 (List.mem_filter.mp ha).2
  refine ⟨front, back, rfl, hpart front _ hapart ?_ ?_, hpart back _ hapart' ?_ ?_⟩
  · intro r hr a ha
    have hstop := stop_le h (List.mem_append_left _ hr) ha
    simpa using hstop.trans (hfront r hr)
  · intro a ha hstop
    obtain ⟨r, hr, hin⟩ := exists_run h hlt ha
    rcases List.mem_append.mp hr with hr | hr
    · exact ⟨r, hr, hin⟩
    · have hstop : stop a ≤ k := of_decide_eq_true hstop
      have hlta := hlt a ha
      have hkr := hback r hr
      omega
  · intro r hr a ha
    have hkr := hback r hr
    have hstart := (mem_beginningIn.mp ha).2.1
    simpa using hkr.trans_le hstart
  · intro a ha hstart
    obtain ⟨r, hr, hin⟩ := exists_run h hlt ha
    rcases List.mem_append.mp hr with hr | hr
    · have hstart : k < start a := of_decide_eq_true hstart
      have hrk := hfront r hr
      omega
    · exact ⟨r, hr, hin⟩

end Items

end RagflowMineru.Library
