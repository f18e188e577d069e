import RagflowMineru.Deepdoc.TableGrid
import Mathlib.Data.List.ProdSigma

/-!
# Spanning cells

A box with a spanning frame names the rows and columns whose centres lie in the frame.  The
cells of the rectangle around them are put together in one cell, and a cell that says just what has
been gathered before it is left out.  In HTML the other cells of the rectangle are covered; for a
text all of them show what was gathered.
-/

namespace RagflowMineru.Deepdoc

open Library

/-- `tbl` with `None` for a covered cell. -/
structure SpanTable where
  rows : ℕ
  cols : ℕ
  cell : ℕ → ℕ → Option (List TableBox)

/-- `a["rowspan"]` where it is a list -/
def placesOf : Option Span → List ℕ
  | some (.places l) => l
  | _ => []

/-- `join` -/
def joinTexts (arr : List TableBox) : List Char := arr.flatMap fun t => t.text

section Marks

def mean (l : List ℚ) : ℚ := l.sum / l.length

/-- `clft` and `crgt` -/
def columnEdges (cols : List (List TableBox)) : List (ℚ × ℚ) :=
  cols.map fun cln => (mean (cln.map fun c => (c.column.map Band.low).getD c.x0),
    mean (cln.map fun c => (c.column.map Band.high).getD c.x1))

/-- `rtop` and `rbtm`; no box has a tag `R_btm`. -/
def rowEdges (rows : List (List TableBox)) : List (ℚ × ℚ) :=
  rows.map fun row => (mean (row.map fun c => (c.row.map Band.low).getD c.top),
    mean (row.map fun c => c.bottom))

/-- The centre between two edges lies in the frame. -/
def reaches (edge : ℚ × ℚ) (low high : ℚ) : Bool :=
  !(edge.1 + (edge.2 - edge.1) / 2 < low) && !(high < edge.2 - (edge.2 - edge.1) / 2)

def spanPlaces (own : ℕ) (edges : List (ℚ × ℚ)) (low high : ℚ) : List ℕ :=
  own :: (List.range edges.length).filter fun j =>
    j ≠ own && reaches (edges.getD j (0, 0)) low high

def markSpan (rows cols : List (List TableBox)) (b : TableBox) : TableBox :=
  match b.spanning with
  | none => b
  | some frame =>
      { b with
        colspan := some (.places (spanPlaces b.cn (columnEdges cols) frame.left frame.right))
        rowspan := some (.places (spanPlaces b.rn (rowEdges rows) frame.top frame.bottom)) }

end Marks

/-! ## Cells put together -/

/-- `list(range(span[0], span[-1] + 1))` of the sorted places -/
def stretch (places : List ℕ) : Option (List ℕ) :=
  places.min?.bind fun low => places.max?.map fun high => List.range' low (high + 1 - low)

def unspan (a : TableBox) : TableBox := { a with rowspan := none, colspan := none }

def resize (rowspan colspan : List ℕ) (a : TableBox) : TableBox :=
  { a with
    rowspan := if 1 < rowspan.length then some (.size rowspan.length) else none
    colspan := if 1 < colspan.length then some (.size colspan.length) else none }

namespace SpanTable

def ofLayout (t : Layout) : SpanTable :=
  ⟨t.tbl.lines, t.tbl.across, fun i j => some ((t.tbl.cell i j).map (markSpan t.rows t.cols))⟩

def boxesAt (t : SpanTable) (r c : ℕ) : List TableBox := (t.cell r c).getD []

/-- A cell is gathered unless it says what has been gathered before it. -/
def gatherCell (t : SpanTable) (arr : List TableBox) (rc : ℕ × ℕ) : List TableBox :=
  if joinTexts (t.boxesAt rc.1 rc.2) ≠ joinTexts arr then arr ++ t.boxesAt rc.1 rc.2 else arr

def gather (t : SpanTable) (places : List (ℕ × ℕ)) : List TableBox :=
  places.foldl (gatherCell t) []

def set (t : SpanTable) (i j : ℕ) (arr : List TableBox) : SpanTable :=
  { t with cell := fun r c => if r = i ∧ c = j then some arr else t.cell r c }

/-- The rectangle shows what was gathered: in HTML its first cell, in a text every one. -/
def cover (html : Bool) (t : SpanTable) (rowspan colspan : List ℕ) : SpanTable :=
  let arr := (t.gather (rowspan.product colspan)).map (resize rowspan colspan)
  { t with
    cell := fun r c =>
      if r ∈ rowspan ∧ c ∈ colspan then
        if html ∧ (r, c) ≠ (rowspan.headD 0, colspan.headD 0) then none else some arr
      else t.cell r c }

/-- "rm the spaning cells", at one cell; `none` is an `IndexError` or one of the assertions.  The
cells of a rectangle share their boxes in a text, so that the size of a span can change in all of
them, which nobody reads there; here each has its own. -/
def spanStep (html : Bool) (t : SpanTable) (ij : ℕ × ℕ) : Option SpanTable :=
  let arr := t.boxesAt ij.1 ij.2
  let rowspan := arr.flatMap fun a => placesOf a.rowspan
  let colspan := arr.flatMap fun a => placesOf a.colspan
  if arr.all fun a => a.rowspan.isNone && a.colspan.isNone then some t
  else if rowspan.dedup.length < 2 ∧ colspan.dedup.length < 2 then
    some (t.set ij.1 ij.2 (arr.map unspan))
  else
    (stretch rowspan).bind fun rowspan => (stretch colspan).bind fun colspan =>
      if ij.1 ∈ rowspan ∧ ij.2 ∈ colspan ∧ (∀ r ∈ rowspan, r < t.rows) ∧ ∀ c ∈ colspan, c < t.cols
      then some (t.cover html rowspan colspan)
      else none

end SpanTable

/-- `__cal_spans` -/
def calSpans (html : Bool) (t : Layout) : Option SpanTable :=
  let tbl := SpanTable.ofLayout t
  ((List.range tbl.rows).product (List.range tbl.cols)).foldlM (SpanTable.spanStep html) tbl

/-! ## What is gathered -/

theorem joinTexts_append (xs ys : List TableBox) :
    joinTexts (xs ++ ys) = joinTexts xs ++ joinTexts ys :=
  List.flatMap_append

theorem joinTexts_map (f : TableBox → TableBox) (hf : ∀ a, (f a).text = a.text)
    (arr : List TableBox) : joinTexts (arr.map f) = joinTexts arr := by
  rw [joinTexts, List.flatMap_map]
  exact List.flatMap_congr fun a _ => hf a

theorem text_infix_joinTexts {arr : List TableBox} {a : TableBox} (ha : a ∈ arr) :
    a.text <:+: joinTexts arr := by
  obtain ⟨xs, ys, rfl⟩ := List.append_of_mem ha
  rw [joinTexts_append]
  exact ⟨joinTexts xs, joinTexts ys, by simp [joinTexts]⟩

namespace SpanTable

variable {t : SpanTable}

theorem prefix_gatherCell (arr : List TableBox) (rc : ℕ × ℕ) : arr <+: t.gatherCell arr rc := by
  rw [gatherCell]
  split_ifs
  · exact List.prefix_append _ _
  · exact List.prefix_rfl

theorem prefix_foldl_gatherCell (places : List (ℕ × ℕ)) (arr : List TableBox) :
    arr <+: places.foldl t.gatherCell arr := by
  induction places generalizing arr with
  | nil => exact List.prefix_rfl
  | cons rc places ih => exact (prefix_gatherCell arr rc).trans (ih _)

theorem infix_of_prefix {xs ys : List TableBox} {s : List Char} (hs : s <:+: joinTexts xs)
    (h : xs <+: ys) : s <:+: joinTexts ys := by
  obtain ⟨zs, rfl⟩ := h
  rw [joinTexts_append]
  exact hs.trans (List.prefix_append _ _).isInfix

/-- A cell is gathered, or what it says has been gathered already. -/
theorem infix_gatherCell (arr : List TableBox) (rc : ℕ × ℕ) :
    joinTexts (t.boxesAt rc.1 rc.2) <:+: joinTexts (t.gatherCell arr rc) := by
  rw [gatherCell]
  split_ifs with h
  · rw [joinTexts_append]
    exact (List.suffix_append _ _).isInfix
  · exact (not_not.mp h) ▸ List.infix_rfl

theorem infix_gather {places : List (ℕ × ℕ)} {rc : ℕ × ℕ} (hrc : rc ∈ places) :
    joinTexts (t.boxesAt rc.1 rc.2) <:+: joinTexts (t.gather places) := by
  obtain ⟨before, behind, rfl⟩ := List.append_of_mem hrc
  rw [gather, List.foldl_append, List.foldl_cons]
  exact infix_of_prefix (infix_gatherCell _ rc) (prefix_foldl_gatherCell behind _)

theorem mem_gather {places : List (ℕ × ℕ)} {a : TableBox} (ha : a ∈ t.gather places) :
    ∃ rc ∈ places, a ∈ t.boxesAt rc.1 rc.2 := by
  have hfold : ∀ (places : List (ℕ × ℕ)) (arr : List TableBox),
      a ∈ places.foldl t.gatherCell arr → a ∈ arr ∨ ∃ rc ∈ places, a ∈ t.boxesAt rc.1 rc.2 := by
    intro places
    induction places with
    | nil => exact fun arr h => Or.inl h
    | cons rc places ih =>
        intro arr h
        rcases ih _ h with h | ⟨rc', hrc', h⟩
        · rw [gatherCell] at h
          split_ifs at h
          · rcases List.mem_append.mp h with h | h
            · exact Or.inl h
            · exact Or.inr ⟨rc, List.mem_cons_self, h⟩
          · exact Or.inl h
        · exact Or.inr ⟨rc', List.mem_cons_of_mem rc hrc', h⟩
  exact (hfold places [] ha).resolve_left List.not_mem_nil

end SpanTable

/-! ## Stretches -/

/-- The places of a stretch reach from the smallest to the largest. -/
theorem stretch_spec {places : List ℕ} {k : ℕ} (hk : k ∈ places) :
    ∃ l, stretch places = some l ∧ (∀ x ∈ places, x ∈ l) ∧ ∀ x ∈ l, ∃ y ∈ places, x ≤ y := by
  obtain ⟨low, hlow⟩ := Option.isSome_iff_exists.mp (List.isSome_min?_of_mem hk)
  obtain ⟨high, hhigh⟩ := Option.isSome_iff_exists.mp (List.isSome_max?_of_mem hk)
  have hle := (List.min?_eq_some_iff.mp hlow).2
  obtain ⟨hmem, hge⟩ := List.max?_eq_some_iff.mp hhigh
  refine ⟨List.range' low (high + 1 - low), by rw [stretch, hlow, hhigh]; rfl, ?_, ?_⟩
  · intro x hx
    have h₁ := hle x hx
    have h₂ := hge x hx
    exact List.mem_range'_1.mpr ⟨h₁, by omega⟩
  · intro x hx
    obtain ⟨h₁, h₂⟩ := List.mem_range'_1.mp hx
    exact ⟨high, hmem, by omega⟩

/-! ## The table with its spans -/

/-- A box without places, or one that lies in its own places, all of them in the table. -/
def Spanned (t : SpanTable) (i j : ℕ) (a : TableBox) : Prop :=
  (placesOf a.rowspan = [] ∧ placesOf a.colspan = []) ∨
    (i ∈ placesOf a.rowspan ∧ j ∈ placesOf a.colspan ∧
      (∀ r ∈ placesOf a.rowspan, r < t.rows) ∧ ∀ c ∈ placesOf a.colspan, c < t.cols)

/-- A cell of the table shows the text. -/
def SpanTable.Displays (t : SpanTable) (text : List Char) : Prop :=
  ∃ i j, i < t.rows ∧ j < t.cols ∧ text <:+: joinTexts (t.boxesAt i j)

/-- The boxes are some of the given ones, and every text of them is shown. -/
structure SpanTable.Shows (boxes : List TaggedBox) (t : SpanTable) : Prop where
  spanned : ∀ i j, i < t.rows → j < t.cols → ∀ a ∈ t.boxesAt i j, Spanned t i j a
  mem : ∀ i j, i < t.rows → j < t.cols → ∀ a ∈ t.boxesAt i j, a.toTaggedBox ∈ boxes
  texts : ∀ b ∈ boxes, t.Displays b.text

namespace SpanTable

variable {boxes : List TaggedBox} {t : SpanTable} {html : Bool} {i j : ℕ} {arr : List TableBox}
  {rowspan colspan : List ℕ}

theorem boxesAt_set (r c : ℕ) :
    (t.set i j arr).boxesAt r c = if r = i ∧ c = j then arr else t.boxesAt r c := by
  simp only [boxesAt, set]
  split_ifs
  · rfl
  · rfl

theorem boxesAt_cover (r c : ℕ) :
    (t.cover html rowspan colspan).boxesAt r c =
      if r ∈ rowspan ∧ c ∈ colspan then
        if html ∧ (r, c) ≠ (rowspan.headD 0, colspan.headD 0) then []
        else (t.gather (rowspan.product colspan)).map (resize rowspan colspan)
      else t.boxesAt r c := by
  simp only [boxesAt, cover]
  split_ifs
  · rfl
  · rfl
  · rfl

theorem placesOf_resize (a : TableBox) :
    placesOf (resize rowspan colspan a).rowspan = [] ∧
      placesOf (resize rowspan colspan a).colspan = [] := by
  constructor
  · rw [resize]
    split_ifs <;> rfl
  · rw [resize]
    split_ifs <;> rfl

/-- The places of a cell are forgotten. -/
theorem Shows.set_unspan (ht : t.Shows boxes) (hi : i < t.rows) (hj : j < t.cols) :
    (t.set i j ((t.boxesAt i j).map unspan)).Shows boxes := by
  refine ⟨fun r c hr hc a ha => ?_, fun r c hr hc a ha => ?_, fun b hb => ?_⟩
  · rw [boxesAt_set] at ha
    split_ifs at ha with hcell
    · obtain ⟨b, -, rfl⟩ := List.mem_map.mp ha
      exact Or.inl ⟨rfl, rfl⟩
    · exact ht.spanned r c hr hc a ha
  · rw [boxesAt_set] at ha
    split_ifs at ha with hcell
    · obtain ⟨b, hb, rfl⟩ := List.mem_map.mp ha
      exact ht.mem i j hi hj b hb
    · exact ht.mem r c hr hc a ha
  · obtain ⟨r, c, hr, hc, htext⟩ := ht.texts b hb
    refine ⟨r, c, hr, hc, ?_⟩
    rw [boxesAt_set]
    split_ifs with hcell
    · rw [joinTexts_map unspan fun _ => rfl, ← hcell.1, ← hcell.2]
      exact htext
    · exact htext

theorem mem_headD {l : List ℕ} {x : ℕ} (hx : x ∈ l) : l.headD 0 ∈ l := by
  cases l with
  | nil => exact absurd hx List.not_mem_nil
  | cons y l => exact List.mem_cons_self

/-- A rectangle in the table is put together: what its cells say is still shown. -/
theorem Shows.cover (ht : t.Shows boxes) (html : Bool) (hi : i ∈ rowspan) (hj : j ∈ colspan)
    (hrows : ∀ r ∈ rowspan, r < t.rows) (hcols : ∀ c ∈ colspan, c < t.cols) :
    (t.cover html rowspan colspan).Shows boxes := by
  have hgather : ∀ a ∈ (t.gather (rowspan.product colspan)).map (resize rowspan colspan),
      (placesOf a.rowspan = [] ∧ placesOf a.colspan = []) ∧ a.toTaggedBox ∈ boxes := by
    intro a ha
    obtain ⟨b, hb, rfl⟩ := List.mem_map.mp ha
    obtain ⟨⟨r, c⟩, hrc, hb⟩ := mem_gather hb
    obtain ⟨hr, hc⟩ := List.mem_product.mp hrc
    exact ⟨placesOf_resize b, ht.mem r c (hrows r hr) (hcols c hc) b hb⟩
  refine ⟨fun r c hr hc a ha => ?_, fun r c hr hc a ha => ?_, fun b hb => ?_⟩
  · rw [boxesAt_cover] at ha
    split_ifs at ha with hrect hcovered
    · exact absurd ha List.not_mem_nil
    · exact Or.inl (hgather a ha).1
    · exact ht.spanned r c hr hc a ha
  · rw [boxesAt_cover] at ha
    split_ifs at ha with hrect hcovered
    · exact absurd ha List.not_mem_nil
    · exact (hgather a ha).2
    · exact ht.mem r c hr hc a ha
  · obtain ⟨r, c, hr, hc, htext⟩ := ht.texts b hb
    by_cases hrect : r ∈ rowspan ∧ c ∈ colspan
    · have hhead : rowspan.headD 0 ∈ rowspan ∧ colspan.headD 0 ∈ colspan :=
        ⟨mem_headD hi, mem_headD hj⟩
      refine ⟨_, _, hrows _ hhead.1, hcols _ hhead.2, ?_⟩
      rw [boxesAt_cover, if_pos hhead, if_neg fun h => h.2 rfl,
        joinTexts_map (resize rowspan colspan) fun _ => rfl]
      exact htext.trans (infix_gather (List.mem_product.mpr hrect))
    · refine ⟨r, c, hr, hc, ?_⟩
      rw [boxesAt_cover, if_neg hrect]
      exact htext

theorem exists_mem_of_not_lt_two {l : List ℕ} (h : ¬ l.dedup.length < 2) : ∃ x, x ∈ l := by
  obtain ⟨x, hx⟩ := List.exists_mem_of_length_pos (show 0 < l.dedup.length by omega)
  exact ⟨x, List.mem_dedup.mp hx⟩

/-- No step fails, and every text stays shown. -/
theorem spanStep_spec (html : Bool) (ht : t.Shows boxes) (hi : i < t.rows) (hj : j < t.cols) :
    ∃ t', spanStep html t (i, j) = some t' ∧ t'.Shows boxes ∧ t'.rows = t.rows ∧
      t'.cols = t.cols := by
  rw [spanStep]
  split_ifs with hplain hsmall
  · exact ⟨t, rfl, ht, rfl, rfl⟩
  · exact ⟨_, rfl, ht.set_unspan hi hj, rfl, rfl⟩
  · have hplaces : ∃ a ∈ t.boxesAt i j, placesOf a.rowspan ≠ [] ∨ placesOf a.colspan ≠ [] := by
      rw [not_and_or] at hsmall
      rcases hsmall with h | h
      · obtain ⟨x, hx⟩ := exists_mem_of_not_lt_two h
        obtain ⟨a, ha, hx⟩ := List.mem_flatMap.mp hx
        exact ⟨a, ha, Or.inl (List.ne_nil_of_mem hx)⟩
      · obtain ⟨x, hx⟩ := exists_mem_of_not_lt_two h
        obtain ⟨a, ha, hx⟩ := List.mem_flatMap.mp hx
        exact ⟨a, ha, Or.inr (List.ne_nil_of_mem hx)⟩
    obtain ⟨a, ha, hne⟩ := hplaces
    obtain ⟨hir, hjc, -, -⟩ : i ∈ placesOf a.rowspan ∧ j ∈ placesOf a.colspan ∧ _ :=
      (ht.spanned i j hi hj a ha).resolve_left fun h => hne.elim (absurd h.1) (absurd h.2)
    obtain ⟨rs, hrs, hmem_rs, hle_rs⟩ := stretch_spec
      (List.mem_flatMap.mpr ⟨a, ha, hir⟩ : i ∈ (t.boxesAt i j).flatMap fun a => placesOf a.rowspan)
    obtain ⟨cs, hcs, hmem_cs, hle_cs⟩ := stretch_spec
      (List.mem_flatMap.mpr ⟨a, ha, hjc⟩ : j ∈ (t.boxesAt i j).flatMap fun a => placesOf a.colspan)
    have hrows : ∀ r ∈ rs, r < t.rows := by
      intro r hr
      obtain ⟨y, hy, hle⟩ := hle_rs r hr
      obtain ⟨b, hb, hy⟩ := List.mem_flatMap.mp hy
      rcases ht.spanned i j hi hj b hb with ⟨hnone, -⟩ | ⟨-, -, hbound, -⟩
      · exact absurd (hnone ▸ hy) List.not_mem_nil
      · exact lt_of_le_of_lt hle (hbound y hy)
    have hcols : ∀ c ∈ cs, c < t.cols := by
      intro c hc
      obtain ⟨y, hy, hle⟩ := hle_cs c hc
      obtain ⟨b, hb, hy⟩ := List.mem_flatMap.mp hy
      rcases ht.spanned i j hi hj b hb with ⟨-, hnone⟩ | ⟨-, -, -, hbound⟩
      · exact absurd (hnone ▸ hy) List.not_mem_nil
      · exact lt_of_le_of_lt hle (hbound y hy)
    have hi' := hmem_rs i (List.mem_flatMap.mpr ⟨a, ha, hir⟩)
    have hj' := hmem_cs j (List.mem_flatMap.mpr ⟨a, ha, hjc⟩)
    refine ⟨_, ?_, ht.cover html hi' hj' hrows hcols, rfl, rfl⟩
    rw [hrs, Option.bind_some, hcs, Option.bind_some, if_pos ⟨hi', hj', hrows, hcols⟩]

theorem foldlM_spanStep_spec (html : Bool) {places : List (ℕ × ℕ)} (ht : t.Shows boxes)
    (hplaces : ∀ rc ∈ places, rc.1 < t.rows ∧ rc.2 < t.cols) :
    ∃ t', places.foldlM (spanStep html) t = some t' ∧ t'.Shows boxes := by
  induction places generalizing t with
  | nil => exact ⟨t, rfl, ht⟩
  | cons rc places ih =>
      obtain ⟨hr, hc⟩ := hplaces rc List.mem_cons_self
      obtain ⟨t', hstep, ht', hrows, hcols⟩ := spanStep_spec html ht hr hc
      rw [List.foldlM_cons, hstep]
      refine ih ht' fun rc' hrc' => ?_
      rw [hrows, hcols]
      exact hplaces rc' (List.mem_cons_of_mem rc hrc')

theorem tagged_markSpan (rows cols : List (List TableBox)) (b : TableBox) :
    (markSpan rows cols b).toTaggedBox = b.toTaggedBox := by
  rw [markSpan]
  split <;> rfl

theorem mem_spanPlaces {own k : ℕ} {edges : List (ℚ × ℚ)} {low high : ℚ}
    (hown : own < edges.length) (hk : k ∈ spanPlaces own edges low high) : k < edges.length := by
  rcases List.mem_cons.mp hk with rfl | hk
  · exact hown
  · exact List.mem_range.mp (List.mem_filter.mp hk).1

theorem places_nil {t : Layout} (ht : t.Holds boxes) {b : TableBox} (hb : t.tbl.Holds i j b) :
    placesOf b.rowspan = [] ∧ placesOf b.colspan = [] := by
  have hmem := Multiset.mem_map_of_mem TableBox.unplaced (CellGrid.mem_contents.mpr ⟨i, j, hb⟩)
  rw [ht.contents, Multiset.mem_coe] at hmem
  obtain ⟨c, -, hc⟩ := List.mem_map.mp hmem
  have hrowspan : none = b.rowspan := congrArg TableBox.rowspan hc
  have hcolspan : none = b.colspan := congrArg TableBox.colspan hc
  rw [← hrowspan, ← hcolspan]
  exact ⟨rfl, rfl⟩

/-- A table that is laid out shows its boxes. -/
theorem shows_ofLayout {t : Layout} (ht : t.Holds boxes) : (ofLayout t).Shows boxes := by
  have hmark {i j : ℕ} {a : TableBox} (hi : i < t.tbl.lines) (hj : j < t.tbl.across)
      (ha : a ∈ (ofLayout t).boxesAt i j) :
      ∃ b, t.tbl.Holds i j b ∧ markSpan t.rows t.cols b = a := by
    obtain ⟨b, hb, hba⟩ := List.mem_map.mp ha
    exact ⟨b, ⟨hi, hj, hb⟩, hba⟩
  refine ⟨fun i j hi hj a ha => ?_, fun i j hi hj a ha => ?_, fun b hb => ?_⟩
  · obtain ⟨b, hb, rfl⟩ := hmark hi hj ha
    obtain ⟨hrn, hcn⟩ := ht.inStep i j b hb
    rw [markSpan]
    split
    · exact Or.inl (places_nil ht hb)
    · refine Or.inr ⟨hrn ▸ List.mem_cons_self, hcn ▸ List.mem_cons_self, fun r hr => ?_,
        fun c hc => ?_⟩
      · have hlt := mem_spanPlaces (by rwa [rowEdges, List.length_map, hrn, ht.rows_length]) hr
        rwa [rowEdges, List.length_map, ht.rows_length] at hlt
      · have hlt := mem_spanPlaces (by rwa [columnEdges, List.length_map, hcn, ht.cols_length]) hc
        rwa [columnEdges, List.length_map, ht.cols_length] at hlt
  · obtain ⟨b, hb, rfl⟩ := hmark hi hj ha
    rw [tagged_markSpan]
    have hmem := mem_tagged hb
    rw [ht.tagged] at hmem
    exact hmem
  · have hmem : b ∈ t.tbl.contents.map TableBox.toTaggedBox := ht.tagged ▸ hb
    obtain ⟨a, ha, rfl⟩ := Multiset.mem_map.mp hmem
    obtain ⟨i, j, hi, hj, ha⟩ := CellGrid.mem_contents.mp ha
    refine ⟨i, j, hi, hj, ?_⟩
    change a.text <:+: joinTexts ((t.tbl.cell i j).map _)
    rw [joinTexts_map _ fun b => congrArg (fun c : TaggedBox => c.text) (tagged_markSpan _ _ b)]
    exact text_infix_joinTexts ha

end SpanTable

/-- Merging the spanning cells does not fail, and loses no text. -/
theorem calSpans_spec (html : Bool) {boxes : List TaggedBox} {t : Layout} (ht : t.Holds boxes) :
    ∃ t', calSpans html t = some t' ∧ t'.Shows boxes :=
  SpanTable.foldlM_spanStep_spec html (SpanTable.shows_ofLayout ht) fun _ hrc =>
    (List.mem_product.mp hrc).imp List.mem_range.mp List.mem_range.mp

end RagflowMineru.Deepdoc
