import Mathlib.Data.List.Sort
import Mathlib.Data.PNat.Basic
import RagflowMineru.Library.Stepping

/-!
# Rendering the pages of a document in several processes

`load_images_from_pdf` cuts the pages into one range for each process, the last of which also
takes what the division leaves over.  The number of processes is at most the number of pages,
so it is zero or less where there is no page to render.
-/

namespace RagflowMineru.MinerU

open Library

/-- `get_end_page_id`. -/
def getEndPageId (endPageId : Option ℤ) (pdfPageNum : ℕ) : ℤ :=
  let endPageId : ℤ :=
    match endPageId with
    | some endPageId => if 0 ≤ endPageId then endPageId else pdfPageNum - 1
    | none => pdfPageNum - 1
  if endPageId > pdfPageNum - 1 then pdfPageNum - 1 else endPageId

/-- `os.cpu_count() or 1`. -/
def cpuCountOrOne (cpuCount : Option ℕ) : ℕ :=
  match cpuCount with
  | some (n + 1) => n + 1
  | _ => 1

/-- What the division of the pages raises. -/
def zeroDivisionError : String := "integer division or modulo by zero"

/-- What `ProcessPoolExecutor` raises. -/
def maxWorkersError : String := "max_workers must be greater than 0"

/-- The ranges that the processes render, both ends included. -/
def pageRanges (cpuCount : Option ℕ) (threads : ℕ+) (startPageId endPageId : ℤ) :
    Except String (List (ℤ × ℤ)) :=
  let totalPages := endPageId - startPageId + 1
  let actualThreads : ℤ := min (min (cpuCountOrOne cpuCount : ℤ) (threads : ℕ)) totalPages
  if actualThreads = 0 then .error zeroDivisionError
  else
    let pagesPerThread := max 1 (totalPages.fdiv actualThreads)
    let pageRanges := (List.range actualThreads.toNat).map fun i : ℕ =>
      let rangeStart := startPageId + i * pagesPerThread
      if (i : ℤ) = actualThreads - 1 then (rangeStart, endPageId)
      else (rangeStart, startPageId + (i + 1) * pagesPerThread - 1)
    if actualThreads ≤ 0 then .error maxWorkersError else .ok pageRanges

/-- `range(start, end + 1)`. -/
def pagesOf (pageRange : ℤ × ℤ) : List ℤ := Int.range pageRange.1 (pageRange.2 + 1)

section Rendering

variable {Page Image : Type} (render : Page → Image) (pdfDoc : List Page)

/-- `pdf_doc[index]`. -/
def getPage (index : ℤ) : Except String Page :=
  match if 0 ≤ index then pdfDoc[index.toNat]? else none with
  | some page => .ok page
  | none => .error "Failed to load page."

/-- `load_images_from_pdf_core`. -/
def loadImagesFromPdfCore (startPageId : ℤ) (endPageId : Option ℤ) : Except String (List Image) :=
  (pagesOf (startPageId, getEndPageId endPageId pdfDoc.length)).mapM fun index =>
    render <$> getPage pdfDoc index

/-- `load_images_from_pdf`, when no process takes too long. -/
def loadImagesFromPdf (cpuCount : Option ℕ) (threads : ℕ+) (startPageId : ℤ)
    (endPageId : Option ℤ) : Except String (List Image) := do
  let ranges ← pageRanges cpuCount threads startPageId (getEndPageId endPageId pdfDoc.length)
  let allResults ← ranges.mapM fun r => do
    let imagesList ← loadImagesFromPdfCore render pdfDoc r.1 (some r.2)
    return (r.1, imagesList)
  return (allResults.mergeSort fun x y => x.1 ≤ y.1).flatMap Prod.snd

end Rendering

/-- The ranges hold every page once and in order, and they can be rendered. -/
def Splits (cpuCount : Option ℕ) (threads : ℕ+) (pdfPageNum startPageId : ℕ)
    (endPageId : Option ℤ) : Prop :=
  ∃ ranges,
    pageRanges cpuCount threads startPageId (getEndPageId endPageId pdfPageNum) = .ok ranges ∧
      ranges.flatMap pagesOf = pagesOf (startPageId, getEndPageId endPageId pdfPageNum)

/-! ## The ranges -/

theorem cpuCountOrOne_pos (cpuCount : Option ℕ) : 0 < cpuCountOrOne cpuCount := by
  rcases cpuCount with _ | _ | n
  · exact Nat.one_pos
  · exact Nat.one_pos
  · exact Nat.succ_pos n

/-- The effective end page. -/
theorem le_getEndPageId_iff {startPageId pdfPageNum : ℕ} {endPageId : Option ℤ} :
    (startPageId : ℤ) ≤ getEndPageId endPageId pdfPageNum ↔
      startPageId < pdfPageNum ∧ ∀ e, endPageId = some e → 0 ≤ e → startPageId ≤ e := by
  rcases endPageId with _ | e
  · simp only [getEndPageId, reduceCtorEq, false_implies, implies_true, and_true]
    split_ifs <;> omega
  · simp only [getEndPageId, Option.some.injEq, forall_eq']
    split_ifs <;> omega

/-- Without a page there is no process to divide by or to start. -/
theorem pageRanges_of_lt {cpuCount : Option ℕ} {threads : ℕ+} {startPageId endPageId : ℤ}
    (h : endPageId < startPageId) :
    pageRanges cpuCount threads startPageId endPageId = .error zeroDivisionError ∨
      pageRanges cpuCount threads startPageId endPageId = .error maxWorkersError := by
  rw [pageRanges]
  dsimp only
  by_cases hzero : min (min (cpuCountOrOne cpuCount : ℤ) (threads : ℕ))
      (endPageId - startPageId + 1) = 0
  · exact .inl (if_pos hzero)
  · right
    rw [if_neg hzero, if_pos]
    exact (min_le_right _ _).trans (by omega)

/-- `n` ranges of `p` pages each, and a last one up to the end. -/
def consecutive (startPageId endPageId p : ℤ) (n : ℕ) : List (ℤ × ℤ) :=
  ((List.range n).map fun i : ℕ => (startPageId + i * p, startPageId + (i + 1) * p - 1)) ++
    [(startPageId + n * p, endPageId)]

/-- The first processes take as many pages each, and the last one what is left. -/
theorem pageRanges_of_le {cpuCount : Option ℕ} {threads : ℕ+} {startPageId endPageId : ℤ}
    (h : startPageId ≤ endPageId) :
    ∃ (n : ℕ) (p : ℤ), 1 ≤ p ∧ startPageId + n * p ≤ endPageId ∧
      pageRanges cpuCount threads startPageId endPageId =
        .ok (consecutive startPageId endPageId p n) := by
  have htotal : 0 < endPageId - startPageId + 1 := by omega
  have hcpu : (0 : ℤ) < cpuCountOrOne cpuCount := Int.natCast_pos.mpr (cpuCountOrOne_pos cpuCount)
  have hthreads : (0 : ℤ) < (threads : ℕ) := Int.natCast_pos.mpr threads.pos
  rw [pageRanges]
  dsimp only
  have hle := min_le_right (min (cpuCountOrOne cpuCount : ℤ) (threads : ℕ))
    (endPageId - startPageId + 1)
  have hpos := lt_min (lt_min hcpu hthreads) htotal
  generalize min (min (cpuCountOrOne cpuCount : ℤ) (threads : ℕ))
    (endPageId - startPageId + 1) = actualThreads at hle hpos
  obtain ⟨n, rfl⟩ : ∃ n : ℕ, actualThreads = n + 1 :=
    ⟨(actualThreads - 1).toNat, by omega⟩
  -- every process gets a page at least, and all of them no more than there are
  have hone : 1 ≤ (endPageId - startPageId + 1).fdiv (n + 1) := by
    rw [Int.fdiv_eq_ediv_of_nonneg _ hpos.le]
    exact Int.le_ediv_of_mul_le hpos (by omega)
  have hmul : (n + 1) * (endPageId - startPageId + 1).fdiv (n + 1) ≤
      endPageId - startPageId + 1 := by
    rw [Int.fdiv_eq_ediv_of_nonneg _ hpos.le]
    exact Int.mul_ediv_self_le hpos.ne'
  rw [max_eq_right hone]
  generalize (endPageId - startPageId + 1).fdiv (n + 1) = p at hone hmul
  refine ⟨n, p, hone, ?_, ?_⟩
  · rw [add_mul, one_mul] at hmul
    omega
  · rw [if_neg hpos.ne', if_neg (not_le.mpr hpos)]
    have htoNat : ((n : ℤ) + 1).toNat = n + 1 := by omega
    rw [htoNat, List.range_succ, List.map_append, List.map_singleton, if_pos (by omega)]
    congr 2
    refine List.map_congr_left fun i hi => ?_
    have hlt := List.mem_range.mp hi
    rw [if_neg (by omega)]

section Consecutive

variable {startPageId endPageId p : ℤ} {n : ℕ}

theorem flatMap_pagesOf_consecutive (hp : 1 ≤ p) (hend : startPageId + n * p ≤ endPageId) :
    (consecutive startPageId endPageId p n).flatMap pagesOf = pagesOf (startPageId, endPageId) := by
  have hfirst : ((List.range n).map fun i : ℕ => (startPageId + i * p,
        startPageId + (i + 1) * p - 1)).flatMap pagesOf =
      Int.range startPageId (startPageId + n * p) := by
    rw [List.flatMap_map, ← flatMap_range_stretches _ (zero_le_one.trans hp)]
    simp only [pagesOf, sub_add_cancel]
  rw [consecutive, List.flatMap_append, hfirst, List.flatMap_singleton]
  refine range_append (le_add_of_nonneg_right ?_) (by omega)
  exact mul_nonneg (Int.natCast_nonneg n) (zero_le_one.trans hp)

theorem consecutive_bounds (hp : 1 ≤ p) (hend : startPageId + n * p ≤ endPageId) :
    ∀ r ∈ consecutive startPageId endPageId p n,
      startPageId ≤ r.1 ∧ startPageId ≤ r.2 ∧ r.2 ≤ endPageId := by
  have hnonneg : ∀ i : ℕ, 0 ≤ i * p := fun i =>
    mul_nonneg (Int.natCast_nonneg i) (zero_le_one.trans hp)
  intro r hr
  rcases List.mem_append.mp hr with hr | hr
  · obtain ⟨i, hi, rfl⟩ := List.mem_map.mp hr
    have hstep : ((i + 1 : ℕ) : ℤ) * p ≤ n * p :=
      mul_le_mul_of_nonneg_right (Int.ofNat_le.mpr (List.mem_range.mp hi)) (zero_le_one.trans hp)
    have hi' := hnonneg i
    rw [Nat.cast_succ] at hstep
    dsimp only
    refine ⟨by omega, ?_, by omega⟩
    rw [add_mul, one_mul]
    omega
  · rw [List.mem_singleton.mp hr]
    have hn := hnonneg n
    dsimp only
    omega

theorem pairwise_consecutive (hp : 1 ≤ p) :
    (consecutive startPageId endPageId p n).Pairwise fun r r' => r.1 ≤ r'.1 := by
  have hmono : ∀ {i j : ℕ}, i ≤ j → startPageId + i * p ≤ startPageId + j * p := fun {i j} hij =>
    add_le_add_right (mul_le_mul_of_nonneg_right (Int.ofNat_le.mpr hij)
      (zero_le_one.trans hp)) startPageId
  rw [consecutive, List.pairwise_append, List.pairwise_map]
  refine ⟨List.pairwise_lt_range.imp fun hij => hmono hij.le, List.pairwise_singleton _ _, ?_⟩
  intro r hr r' hr'
  obtain ⟨i, hi, rfl⟩ := List.mem_map.mp hr
  rw [List.mem_singleton.mp hr']
  exact hmono (List.mem_range.mp hi).le

end Consecutive

/-- The pages are split, if and only if there is one from the start page on. -/
theorem splits_iff (cpuCount : Option ℕ) (threads : ℕ+) (pdfPageNum startPageId : ℕ)
    (endPageId : Option ℤ) :
    Splits cpuCount threads pdfPageNum startPageId endPageId ↔
      startPageId < pdfPageNum ∧ ∀ e, endPageId = some e → 0 ≤ e → startPageId ≤ e := by
  rw [← le_getEndPageId_iff, Splits]
  generalize getEndPageId endPageId pdfPageNum = endPageId
  constructor
  · rintro ⟨ranges, hranges, -⟩
    by_contra hlt
    rcases @pageRanges_of_lt cpuCount threads _ _ (not_le.mp hlt) with herror | herror
    · rw [herror] at hranges
      cases hranges
    · rw [herror] at hranges
      cases hranges
  · intro hle
    obtain ⟨n, p, hp, hend, hranges⟩ := @pageRanges_of_le cpuCount threads _ _ hle
    exact ⟨_, hranges, flatMap_pagesOf_consecutive hp hend⟩

/-- Three pages are there, and the first one to be rendered would be the fourth. -/
theorem not_splits_behind_end :
    ¬ Splits (some 8) 4 3 3 none ∧
      pageRanges (some 8) 4 3 (getEndPageId none 3) = .error zeroDivisionError ∧
      pageRanges (some 8) 4 4 (getEndPageId none 3) = .error maxWorkersError := by
  refine ⟨fun h => ?_, rfl, rfl⟩
  obtain ⟨ranges, hranges, -⟩ := h
  cases hranges

/-! ## One process and several -/

section Rendering

variable {Page Image : Type} {render : Page → Image} {pdfDoc : List Page} {startPageId : ℕ}
  {endPageId : Option ℤ}

theorem ok_bind {ε α β : Type} (a : α) (f : α → Except ε β) : (Except.ok a >>= f) = f a := rfl

theorem mapM_eq_ok {ε α β : Type} {g : α → Except ε β} {h : α → β} {l : List α}
    (hg : ∀ a ∈ l, g a = .ok (h a)) : l.mapM g = .ok (l.map h) := by
  induction l with
  | nil => rfl
  | cons a l ih =>
    obtain ⟨ha, hl⟩ := List.forall_mem_cons.mp hg
    rw [List.mapM_cons, ha, ih hl]
    rfl

/-- A single process renders nothing where the range is empty. -/
theorem loadImagesFromPdfCore_of_lt (h : getEndPageId endPageId pdfDoc.length < startPageId) :
    loadImagesFromPdfCore render pdfDoc startPageId endPageId = .ok [] := by
  have hnil : pagesOf (startPageId, getEndPageId endPageId pdfDoc.length) = [] := by
    rw [List.eq_nil_iff_forall_not_mem]
    intro index hindex
    have hmem := Int.mem_range_iff.mp hindex
    dsimp only at hmem
    omega
  rw [loadImagesFromPdfCore, hnil]
  rfl

theorem getEndPageId_lt (endPageId : Option ℤ) (pdfPageNum : ℕ) :
    getEndPageId endPageId pdfPageNum < pdfPageNum := by
  rcases endPageId with _ | e
  · simp only [getEndPageId]
    split_ifs <;> omega
  · simp only [getEndPageId]
    split_ifs <;> omega

theorem getEndPageId_some {e : ℤ} {pdfPageNum : ℕ} (h : 0 ≤ e) (hlt : e < pdfPageNum) :
    getEndPageId (some e) pdfPageNum = e := by
  rw [getEndPageId]
  simp only [if_pos h]
  exact if_neg (by omega)

/-- Rendering a page of the document cannot fail. -/
theorem exists_render (render : Page → Image) (hne : pdfDoc ≠ []) :
    ∃ image : ℤ → Image, ∀ index : ℤ, 0 ≤ index → index < pdfDoc.length →
      render <$> getPage pdfDoc index = .ok (image index) := by
  obtain ⟨first, rest, rfl⟩ := List.exists_cons_of_ne_nil hne
  refine ⟨fun index => render ((first :: rest).getD index.toNat first), fun index hpos hlt => ?_⟩
  have htoNat : index.toNat < (first :: rest).length := by omega
  dsimp only
  rw [getPage, if_pos hpos, List.getD_eq_getElem?_getD, List.getElem?_eq_getElem htoNat]
  rfl

/-- Several processes render what a single one renders, in the same order. -/
theorem loadImagesFromPdf_eq_core (cpuCount : Option ℕ) (threads : ℕ+)
    (h : (startPageId : ℤ) ≤ getEndPageId endPageId pdfDoc.length) :
    loadImagesFromPdf render pdfDoc cpuCount threads startPageId endPageId =
      loadImagesFromPdfCore render pdfDoc startPageId endPageId := by
  have hend := getEndPageId_lt endPageId pdfDoc.length
  obtain ⟨image, himage⟩ := exists_render render (List.ne_nil_of_length_pos
    (show 0 < pdfDoc.length by omega))
  have hcore : ∀ a b : ℤ, 0 ≤ a → 0 ≤ b → b < pdfDoc.length →
      loadImagesFromPdfCore render pdfDoc a (some b) = .ok ((pagesOf (a, b)).map image) := by
    intro a b ha hb hlt
    rw [loadImagesFromPdfCore, getEndPageId_some hb hlt]
    refine mapM_eq_ok fun index hindex => ?_
    have hmem := Int.mem_range_iff.mp hindex
    dsimp only at hmem
    exact himage index (by omega) (by omega)
  have hsingle : loadImagesFromPdfCore render pdfDoc startPageId endPageId =
      .ok ((pagesOf (startPageId, getEndPageId endPageId pdfDoc.length)).map image) := by
    rw [← hcore _ _ (Int.natCast_nonneg _) (by omega) hend, loadImagesFromPdfCore,
      loadImagesFromPdfCore, getEndPageId_some (by omega) hend]
  obtain ⟨n, p, hp, hlast, hranges⟩ := @pageRanges_of_le cpuCount threads _ _ h
  have hbounds := consecutive_bounds hp hlast
  have hall : ((consecutive startPageId (getEndPageId endPageId pdfDoc.length) p n).mapM fun r => do
        let imagesList ← loadImagesFromPdfCore render pdfDoc r.1 (some r.2)
        return (r.1, imagesList)) =
      .ok ((consecutive startPageId (getEndPageId endPageId pdfDoc.length) p n).map fun r =>
        (r.1, (pagesOf r).map image)) := by
    refine mapM_eq_ok fun r hr => ?_
    obtain ⟨hfirst, hsecond, hle⟩ := hbounds r hr
    rw [hcore r.1 r.2 (by omega) (by omega) (by omega)]
    rfl
  have hsorted : ((consecutive startPageId (getEndPageId endPageId pdfDoc.length) p n).map fun r =>
      (r.1, (pagesOf r).map image)).Pairwise fun x y => decide (x.1 ≤ y.1) = true := by
    rw [List.pairwise_map]
    exact (pairwise_consecutive hp).imp fun hle => decide_eq_true hle
  rw [hsingle, loadImagesFromPdf, hranges, ok_bind, hall, ok_bind,
    List.mergeSort_of_pairwise hsorted, List.flatMap_map, ← flatMap_pagesOf_consecutive hp hlast,
    List.map_flatMap]
  rfl

end Rendering

end RagflowMineru.MinerU
