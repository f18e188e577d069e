import RagflowMineru.Document.TaskReuse
import RagflowMineru.Library.Stepping

/-!
# The pages of the parsing tasks

When a document is queued, its pages are dealt out to tasks.  A PDF is cut at the
configured page ranges, which count from 1 and leave their end out, and each range
into slices; of a table the rows are cut into slices, and any other document is one task.
-/

namespace RagflowMineru.Document

open Library

/-- What `queue_tasks` reads of a document. -/
structure QueuedDoc where
  isPdf : Bool
  parserId : String
  layoutRecognize : Option String := none
  taskPageSize : Option ℕ := none
  tocExtraction : Bool := false
  pages : Option (List (ℤ × ℤ)) := none

namespace QueuedDoc

/-- `parser_config.get("task_page_size") or default` -/
def taskPageSizeOr (doc : QueuedDoc) (default : ℕ) : ℕ :=
  match doc.taskPageSize with
  | some (n + 1) => n + 1
  | _ => default

def pageSize (doc : QueuedDoc) : ℕ :=
  if doc.parserId ∈ ["one", "knowledge_graph"] ∨
      doc.layoutRecognize.getD "DeepDOC" ≠ "DeepDOC" ∨ doc.tocExtraction then 10 ^ 9
  else if doc.parserId = "paper" then doc.taskPageSizeOr 22
  else doc.taskPageSizeOr 12

def pageRanges (doc : QueuedDoc) : List (ℤ × ℤ) :=
  match doc.pages with
  | none | some [] => [(1, 10 ^ 5)]
  | some ranges => ranges

theorem pageSize_pos (doc : QueuedDoc) : 0 < doc.pageSize := by
  have hor : ∀ n, 0 < n → 0 < doc.taskPageSizeOr n := by
    intro n hn
    rw [taskPageSizeOr]
    split
    · exact Nat.succ_pos _
    · exact hn
  rw [pageSize]
  split_ifs
  · exact Nat.pos_of_neZero _
  · exact hor 22 (by decide)
  · exact hor 12 (by decide)

/-- A configured page size holds unless the whole document has to be one task. -/
theorem pageSize_of_configured {doc : QueuedDoc} {n : ℕ} (hn : 0 < n)
    (hsize : doc.taskPageSize = some n) : doc.pageSize = n ∨ doc.pageSize = 10 ^ 9 := by
  have hor : ∀ default, doc.taskPageSizeOr default = n := by
    obtain ⟨n, rfl⟩ := Nat.exists_eq_add_of_le' hn
    intro default
    rw [taskPageSizeOr, hsize]
  rw [pageSize]
  split_ifs
  · exact Or.inr rfl
  · exact Or.inl (hor 22)
  · exact Or.inl (hor 12)

end QueuedDoc

/-- The slices of one range of a PDF with this many pages. -/
def rangeSlices (pages pageSize : ℕ) (range : ℤ × ℤ) : List (ℤ × ℤ) :=
  slices (max 0 (range.1 - 1)) (min (range.2 - 1) pages) pageSize

/-- The pages of the tasks: those of a PDF, if they can be counted, the rows of a table, or all. -/
def taskPages (doc : QueuedDoc) (pages : Option ℕ) (rows : ℕ) : List (ℤ × ℤ) :=
  if doc.isPdf then doc.pageRanges.flatMap (rangeSlices (pages.getD 0) doc.pageSize)
  else if doc.parserId = "table" then slices 0 rows 3000
  else [(0, 100000000)]

/-- `parse_task_array`; the digest is of the configuration, the document and the pages. -/
def parseTaskArray (digest : ℤ → ℤ → String) (doc : QueuedDoc) (pages : Option ℕ) (rows : ℕ) :
    List PageTask :=
  (taskPages doc pages rows).map fun t => ⟨t.1, t.2, digest t.1 t.2⟩

def PageTask.range (t : PageTask) : Set ℤ :=
  Set.Ico t.fromPage t.toPage

/-! ## The partition -/

/-- The tasks go through the wanted pages, each once, in parts of at most `pageSize` pages. -/
def Partitions (tasks : List PageTask) (pageSize : ℕ) (wanted : Set ℤ) : Prop :=
  (tasks.map PageTask.range).Pairwise Disjoint ∧
    (∀ t ∈ tasks, t.toPage - t.fromPage ≤ pageSize) ∧
    ⋃ t ∈ tasks, t.range = wanted

/-- The existing pages that some range selects; page `p` has the number `p + 1`. -/
def selected (ranges : List (ℤ × ℤ)) (inRange : ℤ × ℤ → ℤ → Prop) (pages : ℕ) : Set ℤ :=
  {p | 0 ≤ p ∧ p < pages ∧ ∃ range ∈ ranges, inRange range (p + 1)}

/-- The pages of a range without its end. -/
def beforeEnd (range : ℤ × ℤ) (number : ℤ) : Prop :=
  range.1 ≤ number ∧ number < range.2

/-- The pages of a range with its end. -/
def throughEnd (range : ℤ × ℤ) (number : ℤ) : Prop :=
  range.1 ≤ number ∧ number ≤ range.2

/-- No page number is in two ranges. -/
def Apart (inRange : ℤ × ℤ → ℤ → Prop) (ranges : List (ℤ × ℤ)) : Prop :=
  ranges.Pairwise fun r r' => ∀ number, inRange r number → ¬ inRange r' number

theorem mem_rangeSlices_Ico {pages pageSize : ℕ} (hsize : 0 < pageSize) {range : ℤ × ℤ} {p : ℤ} :
    (∃ t ∈ rangeSlices pages pageSize range, p ∈ Set.Ico t.1 t.2) ↔
      0 ≤ p ∧ p < pages ∧ beforeEnd range (p + 1) := by
  have hunion := @iUnion_slices (max 0 (range.1 - 1)) (min (range.2 - 1) pages) pageSize hsize
  have hmem := Set.ext_iff.mp hunion p
  simp only [Set.mem_iUnion, exists_prop] at hmem
  rw [rangeSlices, hmem, Set.mem_Ico, beforeEnd]
  omega

/-- Slices of ranges that are apart are disjoint, as are the slices of one range. -/
theorem pairwise_disjoint_rangeSlices {pages pageSize : ℕ} (hsize : 0 < pageSize)
    {ranges : List (ℤ × ℤ)} (hapart : Apart beforeEnd ranges) :
    (ranges.flatMap (rangeSlices pages pageSize)).Pairwise fun t u =>
      Disjoint (Set.Ico t.1 t.2) (Set.Ico u.1 u.2) := by
  rw [List.pairwise_flatMap]
  constructor
  · intro range _
    refine (pairwise_slices _ _ _).imp fun {t u} htu => ?_
    rw [Set.disjoint_left]
    rintro p ⟨-, hp⟩ ⟨hp', -⟩
    omega
  · refine hapart.imp fun {r r'} h t ht u hu => ?_
    rw [Set.disjoint_left]
    intro p hp hp'
    exact h (p + 1) (mem_rangeSlices_Ico hsize |>.mp ⟨t, ht, hp⟩).2.2
      (mem_rangeSlices_Ico hsize |>.mp ⟨u, hu, hp'⟩).2.2

/-- The tasks of a PDF partition the existing pages of its ranges, whose ends are left out. -/
theorem partitions_parseTaskArray (digest : ℤ → ℤ → String) {doc : QueuedDoc}
    (hpdf : doc.isPdf) (hapart : Apart beforeEnd doc.pageRanges) (pages rows : ℕ) :
    Partitions (parseTaskArray digest doc (some pages) rows) doc.pageSize
      (selected doc.pageRanges beforeEnd pages) := by
  have hsize := doc.pageSize_pos
  have htasks : taskPages doc (some pages) rows =
      doc.pageRanges.flatMap (rangeSlices pages doc.pageSize) := if_pos hpdf
  refine ⟨?_, ?_, ?_⟩
  · rw [parseTaskArray, htasks, List.map_map, List.pairwise_map]
    exact pairwise_disjoint_rangeSlices hsize hapart
  · intro t ht
    obtain ⟨u, hu, rfl⟩ := List.mem_map.mp ht
    rw [htasks] at hu
    obtain ⟨range, -, hu⟩ := List.mem_flatMap.mp hu
    exact (slice_spec hsize hu).2.2.2
  · ext p
    rw [parseTaskArray, htasks]
    simp only [Set.mem_iUnion, exists_prop, List.mem_map, List.mem_flatMap]
    constructor
    · rintro ⟨_, ⟨u, ⟨range, hrange, hu⟩, rfl⟩, hp⟩
      obtain ⟨hnonneg, hpages, hnumber⟩ := (mem_rangeSlices_Ico hsize).mp ⟨u, hu, hp⟩
      exact ⟨hnonneg, hpages, range, hrange, hnumber⟩
    · rintro ⟨hnonneg, hpages, range, hrange, hnumber⟩
      obtain ⟨u, hu, hp⟩ := (mem_rangeSlices_Ico hsize).mpr ⟨hnonneg, hpages, hnumber⟩
      exact ⟨_, ⟨u, ⟨range, hrange, hu⟩, rfl⟩, hp⟩

def twoRanges : QueuedDoc where
  isPdf := true
  parserId := "naive"
  taskPageSize := some 2
  pages := some [(1, 4), (6, 20)]

/-- Two ranges of a PDF with eight pages, in slices of two. -/
theorem partitions_twoRanges :
    Partitions (parseTaskArray (fun _ _ => "") twoRanges (some 8) 0) twoRanges.pageSize
      (selected twoRanges.pageRanges beforeEnd 8) :=
  partitions_parseTaskArray (fun _ _ => "") rfl (by
    refine List.pairwise_pair.mpr fun number h h' => ?_
    have hend : number < 4 := h.2
    have hstart : 6 ≤ number := h'.1
    omega) 8 0

def threePages : QueuedDoc where
  isPdf := true
  parserId := "naive"
  pages := some [(1, 3)]

/-- Page 3 of a PDF with three pages is not parsed when the range is from 1 to 3. -/
theorem not_partitions_throughEnd :
    ¬ ∀ (digest : ℤ → ℤ → String) (doc : QueuedDoc) (pages rows : ℕ), doc.isPdf →
      Apart throughEnd doc.pageRanges →
      Partitions (parseTaskArray digest doc (some pages) rows) doc.pageSize
        (selected doc.pageRanges throughEnd pages) := by
  intro h
  have hunion := (h (fun _ _ => "") threePages 3 0 rfl (List.pairwise_singleton _ _)).2.2
  have hselected : (2 : ℤ) ∈ selected [(1, 3)] throughEnd 3 :=
    ⟨by decide, by decide, (1, 3), List.mem_singleton_self _, by decide, by decide⟩
  have htasks : parseTaskArray (fun _ _ => "") threePages (some 3) 0 = [⟨0, 2, ""⟩] := rfl
  have hmem := (Set.ext_iff.mp hunion 2).mpr hselected
  rw [htasks] at hmem
  simp [PageTask.range] at hmem

end RagflowMineru.Document
