import RagflowMineru.Library.Binary64
import RagflowMineru.Library.GridFill
import RagflowMineru.MinerU.Otsl

/-!
# Merging tables across pages

A table that goes on on the next page is put together again: the rows of the
second table that do not repeat the header are appended to the first one.
Before, the rows of the narrower table are brought to the width of the other
one.  How wide a row is is read from the grid of its table as it was before any
row was changed, and the rows are appended to the first table body, wherever
that stands.
-/

namespace RagflowMineru.MinerU.TableMerge

open RagflowMineru.Library
open RagflowMineru.Library.GridFill

/-! ## Tables -/

/-- A `td` or `th`. -/
structure Cell where
  text : String
  colspan : ℕ := 1
  rowspan : ℕ := 1
  colspan_pos : 0 < colspan := by decide
  rowspan_pos : 0 < rowspan := by decide
  deriving DecidableEq

/-- The cells of a `tr`. -/
abbrev Row := List Cell

inductive Group where
  | thead
  | tbody
  | tfoot
  deriving DecidableEq

/-- What stands in a `table`: rows in a group, or a row of its own. -/
inductive Part where
  | group (kind : Group) (rows : List Row)
  | row (row : Row)
  deriving DecidableEq

def Part.rows : Part → List Row
  | .group _ rows => rows
  | .row r => [r]

/-- A table without nested tables. -/
structure Table where
  parts : List Part
  deriving DecidableEq

/-- `find_all("tr")`. -/
def Table.rows (t : Table) : List Row :=
  t.parts.flatMap Part.rows

/-- The rows up to the end of `find("tbody") or find("table")`, and those after it. -/
def splitRows : List Part → List Row × List Row
  | [] => ([], [])
  | .group .tbody rows :: rest => (rows, rest.flatMap Part.rows)
  | p :: rest => (p.rows ++ (splitRows rest).1, (splitRows rest).2)

/-- `append` to the first `tbody`, if there is one. -/
def appendToBody (new : List Row) : List Part → Option (List Part)
  | [] => none
  | .group .tbody rows :: rest => some (.group .tbody (rows ++ new) :: rest)
  | p :: rest => (appendToBody new rest).map (p :: ·)

/-- `append` to `find("tbody") or find("table")`. -/
def Table.appendRows (t : Table) (new : List Row) : Table :=
  ⟨(appendToBody new t.parts).getD (t.parts ++ new.map .row)⟩

/-- The rows are changed where they stand. -/
def refill : List Part → List Row → List Part
  | [], _ => []
  | .group kind old :: rest, rows =>
    .group kind (rows.take old.length) :: refill rest (rows.drop old.length)
  | .row old :: rest, rows => .row (rows.headD old) :: refill rest rows.tail

def Table.withRows (t : Table) (rows : List Row) : Table :=
  ⟨refill t.parts rows⟩

/-! ## Columns -/

def calculateTableTotalColumns (rows : List Row) : ℕ :=
  extent (fillRows Cell.colspan Cell.rowspan 0 [] rows)

def buildTableOccupiedMatrix (rows : List Row) : List ℕ :=
  rowWidths Cell.colspan Cell.rowspan 0 [] rows

def calculateRowEffectiveColumns (rows : List Row) (i : ℕ) : ℕ :=
  (buildTableOccupiedMatrix rows).getD i 0

def calculateRowColumns (row : Row) : ℕ :=
  (row.map Cell.colspan).sum

def calculateVisualColumns (row : Row) : ℕ :=
  row.length

/-! ## Headers -/

def fullToHalf (s : List Char) : List Char :=
  s.map fun c => if 0xFF01 ≤ c.toNat ∧ c.toNat ≤ 0xFF5E then Char.ofNat (c.toNat - 0xFEE0) else c

/-- `''.join(full_to_half(text).split())`. -/
def tidyText (c : Cell) : List Char :=
  (fullToHalf c.text.toList).filter fun c => !Document.isSpace c

def headerText (c : Cell) : List Char :=
  fullToHalf (strip c.text.toList)

structure Headers where
  headerRows : ℕ
  headersMatch : Bool
  headerTexts : List (List (List Char))

/-- The loop over the first rows of both tables. -/
def headerLoop (same : ℕ → Row → Row → Bool) (i : ℕ) (acc : Headers) :
    List (Row × Row) → Headers
  | [] => acc
  | (row1, row2) :: rest =>
    if same i row1 row2 then
      headerLoop same (i + 1) ⟨acc.headerRows + 1, acc.headersMatch,
        acc.headerTexts ++ [row1.map headerText]⟩ rest
    else { acc with headersMatch := decide (0 < acc.headerRows) }

def structureMatch (effective1 effective2 : List ℕ) (i : ℕ) (row1 row2 : Row) : Bool :=
  row1.length = row2.length && effective1.getD i 0 = effective2.getD i 0 &&
    (row1.zip row2).all fun (c1, c2) =>
      c1.colspan = c2.colspan && c1.rowspan = c2.rowspan && tidyText c1 = tidyText c2

def visualMatch (effective1 effective2 : List ℕ) (i : ℕ) (row1 row2 : Row) : Bool :=
  row1.map tidyText = row2.map tidyText && effective1.getD i 0 = effective2.getD i 0

def detectTableHeadersVisual (rows1 rows2 : List Row) (maxHeaderRows : ℕ) : Headers :=
  let headers := headerLoop
    (visualMatch (buildTableOccupiedMatrix rows1) (buildTableOccupiedMatrix rows2)) 0
    ⟨0, true, []⟩ ((rows1.zip rows2).take maxHeaderRows)
  if headers.headerRows = 0 then { headers with headersMatch := false } else headers

def detectTableHeaders (rows1 rows2 : List Row) (maxHeaderRows : ℕ) : Headers :=
  let headers := headerLoop
    (structureMatch (buildTableOccupiedMatrix rows1) (buildTableOccupiedMatrix rows2)) 0
    ⟨0, true, []⟩ ((rows1.zip rows2).take maxHeaderRows)
  if headers.headerRows = 0 then detectTableHeadersVisual rows1 rows2 maxHeaderRows else headers

/-- The number of header rows that the second table repeats. -/
def headerCount (rows1 rows2 : List Row) : ℕ :=
  (detectTableHeaders rows1 rows2 5).headerRows

/-! ## Which tables are merged -/

inductive BlockType where
  | tableBody
  | tableCaption
  | tableFootnote
  deriving DecidableEq

/-- A block of a table: what `merge_para_with_text` makes of it, and the `html` of the first span
of its first line, if there is one; `some none` is a span with no `html`. -/
structure Block where
  type : BlockType
  text : String := ""
  html : Option (Option Table) := none
  crossPage : Bool := false

/-- A `bbox` with its left and right sides, and the blocks. -/
structure TableBlock where
  x0 : ℤ
  x1 : ℤ
  blocks : List Block

def continuationEndMarkers : List String :=
  ["(续)", "(续表)", "(续上表)", "(continued)", "(cont.)", "(cont’d)", "(…continued)", "续表"]

def continuationInlineMarkers : List String :=
  ["(continued)"]

/-- The caption says that the table goes on.  The markers have no capital letters, and none of
their letters is the small one of a letter outside ASCII. -/
def isContinuation (block : Block) : Bool :=
  let captionText := (fullToHalf (strip block.text.toList)).map Char.toLower
  continuationEndMarkers.any (·.toList <:+ captionText) ||
    continuationInlineMarkers.any (·.toList <:+: captionText)

/-- The `html` that is left when all table bodies have been read. -/
def bodyHtml (block : TableBlock) : Option Table :=
  block.blocks.foldl (fun html b =>
    if b.type = .tableBody then b.html.getD html else html) none

/-- The last row that has cells, with its place. -/
def lastRow (rows : List Row) : Option (ℕ × Row) :=
  (rows.zipIdx.findRev? fun p => !p.1.isEmpty).map Prod.swap

def checkRowsMatch (rows1 rows2 : List Row) : Bool :=
  let header := headerCount rows1 rows2
  match lastRow rows1, rows2[header]? with
  | some (last, lastRow), some firstRow =>
    calculateRowEffectiveColumns rows1 last = calculateRowEffectiveColumns rows2 header ||
      calculateRowColumns lastRow = calculateRowColumns firstRow ||
      calculateVisualColumns lastRow = calculateVisualColumns firstRow
  | _, _ => false

/-- Whether the captions and footnotes allow a merge. -/
def captionsAllow (current previous : TableBlock) : Bool :=
  let footnotes := (previous.blocks.filter (·.type = .tableFootnote)).length
  let captions := current.blocks.filter (·.type = .tableCaption)
  if captions.isEmpty then footnotes = 0
  else captions.any isContinuation && footnotes ≤ 1

/-- The tables to be merged, if they are; the outer `none` is the exception of a division. -/
def canMergeTables (current previous : TableBlock) : Option (Option (Table × Table)) :=
  if captionsAllow current previous then
    match bodyHtml previous, bodyHtml current with
    | some soup1, some soup2 =>
      let width1 := current.x1 - current.x0
      let width2 := previous.x1 - previous.x0
      (Binary64.trueDiv |width1 - width2| (min width1 width2)).map fun ratio =>
        if Binary64.nearest (1 / 10) ≤ ratio then none
        else if calculateTableTotalColumns soup1.rows = calculateTableTotalColumns soup2.rows ∨
            checkRowsMatch soup1.rows soup2.rows then some (soup1, soup2)
        else none
    | _, _ => some none
  else some none

/-! ## The merge -/

/-- All cells have the same `colspan`. -/
def checkRowColumnsMatch (row1 row2 : Row) : Bool :=
  row1.map Cell.colspan = row2.map Cell.colspan

/-- A cell with another `colspan`, where that is more than one. -/
def Cell.withReference (c : Cell) (k : ℕ) : Cell :=
  if h : 1 < k then { c with colspan := k, colspan_pos := by omega } else c

def Cell.widen (c : Cell) (d : ℕ) : Cell :=
  { c with colspan := c.colspan + d, colspan_pos := Nat.add_pos_left c.colspan_pos d }

/-- The colspans of the reference are taken over where they are more than one. -/
def applyReference (reference : List ℕ) (row : Row) : Row :=
  row.mapIdx fun j c => c.withReference (reference.getD j 0)

/-- The last cell is widened. -/
def widenLast (d : ℕ) (row : Row) : Row :=
  match row.getLast? with
  | some last => row.dropLast ++ [last.widen d]
  | none => row

/-- What rows are adjusted to. -/
structure Reference where
  referenceStructure : List ℕ
  referenceVisualCols : ℕ
  targetCols : ℕ
  referenceRow : Row

/-- The row has reached the width of the other table. -/
def Reference.reached (ref : Reference) (effective : ℕ) (row : Row) : Bool :=
  ref.targetCols ≤ effective || ref.targetCols ≤ calculateRowColumns row

/-- The row is built like the reference. -/
def Reference.matches (ref : Reference) (row : Row) : Bool :=
  calculateVisualColumns row = ref.referenceVisualCols && checkRowColumnsMatch row ref.referenceRow

def Reference.adjustRow (ref : Reference) (effective : ℕ) (row : Row) : Row :=
  if row.isEmpty then row
  else if ref.reached effective row then row
  else if ref.matches row then
    if row.length ≤ ref.referenceStructure.length then applyReference ref.referenceStructure row
    else row
  else if 0 < ref.targetCols - effective then widenLast (ref.targetCols - effective) row
  else row

/-- The rows from `startIdx` on; the matrix is built once. -/
def adjustTableRowsColspan (rows : List Row) (startIdx endIdx : ℕ) (ref : Reference) : List Row :=
  let effectiveColsMatrix := buildTableOccupiedMatrix rows
  rows.mapIdx fun i row =>
    if startIdx ≤ i ∧ i < endIdx then ref.adjustRow (effectiveColsMatrix.getD i 0) row else row

/-- Rows built like `row` take the colspans of `model`. -/
def referenceTo (model row : Row) (targetCols : ℕ) : Reference :=
  ⟨model.map Cell.colspan, calculateVisualColumns model, targetCols, row⟩

/-- The rows of both tables after the adjustment. -/
def adjustRows (rows1 rows2 : List Row) : List Row × List Row :=
  let header := headerCount rows1 rows2
  match rows1.getLast?, rows2[header]? with
  | some lastRow1, some firstDataRow2 =>
    let tableCols1 := calculateTableTotalColumns rows1
    let tableCols2 := calculateTableTotalColumns rows2
    if tableCols2 ≤ tableCols1 then
      (rows1, adjustTableRowsColspan rows2 header rows2.length
        (referenceTo lastRow1 firstDataRow2 tableCols1))
    else
      (adjustTableRowsColspan rows1 0 rows1.length
        (referenceTo firstDataRow2 lastRow1 tableCols2), rows2)
  | _, _ => (rows1, rows2)

/-- The merged table, and the blocks of the previous table with the footnotes of the current
one. -/
def performTableMerge (soup1 soup2 : Table) (previous : TableBlock)
    (waitMergeTableFootnotes : List Block) : Table × TableBlock :=
  let header := headerCount soup1.rows soup2.rows
  let (rows1, rows2) := adjustRows soup1.rows soup2.rows
  ((soup1.withRows rows1).appendRows (rows2.drop header),
    { previous with
      blocks := previous.blocks.filter (·.type ≠ .tableFootnote) ++
        waitMergeTableFootnotes.map fun b => { b with crossPage := true } })

/-! ## Rows in their places -/

theorem flatMap_rows_refill (parts : List Part) (rows : List Row)
    (h : rows.length = (parts.flatMap Part.rows).length) :
    (refill parts rows).flatMap Part.rows = rows := by
  induction parts generalizing rows with
  | nil => exact (List.eq_nil_of_length_eq_zero h).symm
  | cons p rest ih =>
    rw [List.flatMap_cons, List.length_append] at h
    rcases p with ⟨kind, old⟩ | old
    · have hold : rows.length = old.length + (rest.flatMap Part.rows).length := h
      have hrest := ih (rows.drop old.length) (by rw [List.length_drop]; omega)
      rw [refill, List.flatMap_cons, hrest]
      exact List.take_append_drop _ _
    · have hold : rows.length = 1 + (rest.flatMap Part.rows).length := h
      obtain ⟨r, rows, rfl⟩ : ∃ r rows', rows = r :: rows' := by
        apply List.exists_cons_of_ne_nil
        rintro rfl
        rw [List.length_nil] at hold
        omega
      rw [List.length_cons] at hold
      rw [refill, List.flatMap_cons, List.tail_cons, ih rows (by omega)]
      rfl

theorem length_splitRows_refill (parts : List Part) (rows : List Row)
    (h : rows.length = (parts.flatMap Part.rows).length) :
    (splitRows (refill parts rows)).1.length = (splitRows parts).1.length := by
  induction parts using splitRows.induct generalizing rows with
  | case1 => rfl
  | case2 old rest =>
    rw [List.flatMap_cons, List.length_append] at h
    have hold : rows.length = old.length + (rest.flatMap Part.rows).length := h
    simp only [refill, splitRows, List.length_take]
    omega
  | case3 p rest hp ih =>
    rw [List.flatMap_cons, List.length_append] at h
    rcases p with ⟨kind, old⟩ | old
    · have hold : rows.length = old.length + (rest.flatMap Part.rows).length := h
      have hkind : ∀ rows, Part.group kind old = .group .tbody rows → False := hp
      have hkind' : ∀ rows', Part.group kind (rows.take old.length) = .group .tbody rows' →
          False := by
        rintro rows' heq
        exact hkind old (by rw [(Part.group.inj heq).1])
      rw [refill, splitRows, splitRows, List.length_append, List.length_append,
        ih _ (by rw [List.length_drop]; omega)]
      · simp only [Part.rows, List.length_take]
        omega
      · exact hkind
      · exact hkind'
    · have hold : rows.length = 1 + (rest.flatMap Part.rows).length := h
      rw [refill, splitRows, splitRows, List.length_append, List.length_append,
        ih _ (by rw [List.length_tail]; omega)]
      · rfl
      · simp
      · simp

theorem splitRows_append (parts : List Part) :
    (splitRows parts).1 ++ (splitRows parts).2 = parts.flatMap Part.rows := by
  induction parts using splitRows.induct with
  | case1 => rfl
  | case2 rows rest => rfl
  | case3 p rest hp ih =>
    rw [splitRows, List.flatMap_cons, List.append_assoc, ih]
    exact hp

theorem splitRows_refill {parts : List Part} {rows : List Row}
    (h : rows.length = (parts.flatMap Part.rows).length) :
    splitRows (refill parts rows) =
      (rows.take (splitRows parts).1.length, rows.drop (splitRows parts).1.length) := by
  have happend := splitRows_append (refill parts rows)
  rw [flatMap_rows_refill parts rows h] at happend
  rw [← length_splitRows_refill parts rows h]
  generalize splitRows (refill parts rows) = p at happend ⊢
  obtain ⟨body, tail⟩ := p
  obtain rfl : body ++ tail = rows := happend
  simp

/-- The new rows come after the first body. -/
theorem rows_appendRows (t : Table) (new : List Row) :
    (t.appendRows new).rows = (splitRows t.parts).1 ++ new ++ (splitRows t.parts).2 := by
  obtain ⟨parts⟩ := t
  simp only [Table.appendRows, Table.rows]
  induction parts using splitRows.induct with
  | case1 => simp [appendToBody, splitRows, List.flatMap_map, Part.rows]
  | case2 rows rest => simp [appendToBody, splitRows, Part.rows]
  | case3 p rest hp ih =>
    rw [splitRows, appendToBody]
    · rcases happ : appendToBody new rest with _ | parts
      · simp only [happ, Option.getD_none] at ih
        simp [ih]
      · simp only [happ, Option.getD_some] at ih
        simp [ih]
    all_goals exact hp

/-! ## Cells keep their texts and heights -/

@[simp] theorem Cell.text_withReference (c : Cell) (k : ℕ) : (c.withReference k).text = c.text := by
  unfold Cell.withReference
  split <;> rfl

@[simp] theorem Cell.rowspan_withReference (c : Cell) (k : ℕ) :
    (c.withReference k).rowspan = c.rowspan := by
  unfold Cell.withReference
  split <;> rfl

theorem Cell.withReference_eq_self {c : Cell} {k : ℕ} (h : k ≤ 1 ∨ c.colspan = k) :
    c.withReference k = c := by
  unfold Cell.withReference
  split
  · next hk =>
    obtain rfl : c.colspan = k := h.resolve_left (by omega)
    rfl
  · rfl

theorem map_applyReference {β : Type*} {f : Cell → β} (hf : ∀ c k, f (c.withReference k) = f c)
    (reference : List ℕ) (row : Row) : (applyReference reference row).map f = row.map f := by
  apply List.ext_getElem
  · simp [applyReference]
  · simp [applyReference, hf]

theorem widenLast_concat (d : ℕ) (init : Row) (last : Cell) :
    widenLast d (init ++ [last]) = init ++ [last.widen d] := by
  simp [widenLast]

theorem map_widenLast {β : Type*} {f : Cell → β} (hf : ∀ c d, f (c.widen d) = f c)
    (d : ℕ) (row : Row) : (widenLast d row).map f = row.map f := by
  rcases row.eq_nil_or_concat with rfl | ⟨init, last, rfl⟩
  · rfl
  · rw [List.concat_eq_append, widenLast_concat]
    simp [hf]

namespace Reference

variable (ref : Reference)

/-- Whatever is the same for a cell with another `colspan` is the same in an adjusted row. -/
theorem map_adjustRow {β : Type*} {f : Cell → β} (hf : ∀ c k, f (c.withReference k) = f c)
    (hf' : ∀ c d, f (c.widen d) = f c) (effective : ℕ) (row : Row) :
    (ref.adjustRow effective row).map f = row.map f := by
  simp only [adjustRow]
  split_ifs
  · rfl
  · rfl
  · exact map_applyReference hf _ _
  · rfl
  · exact map_widenLast hf' _ _
  · rfl

/-- The cells of a row that the adjustment widens or moves. -/
def moved (effective : ℕ) (row : Row) : List Cell :=
  if row.isEmpty || ref.reached effective row then []
  else if ref.matches row then
    ((row.zip ref.referenceStructure).dropWhile fun (c, k) => k ≤ 1 || c.colspan = k).map Prod.fst
  else row.getLast?.toList

variable {ref} in
/-- A row that is not wide enough and is built like the reference takes its colspans. -/
theorem adjustRow_of_matches {effective : ℕ} {row : Row} (hreached : !ref.reached effective row)
    (hmatches : ref.matches row) (hlen : row.length ≤ ref.referenceStructure.length) :
    ref.adjustRow effective row = applyReference ref.referenceStructure row := by
  rcases row with _ | ⟨c, row⟩
  · rfl
  · rw [adjustRow, if_neg (by simp), if_neg (by simpa using hreached), if_pos hmatches,
      if_pos hlen]

theorem applyReference_cons (c : Cell) (row : Row) (k : ℕ) (reference : List ℕ) :
    applyReference (k :: reference) (c :: row) =
      c.withReference k :: applyReference reference row := by
  simp [applyReference, List.mapIdx_cons]

theorem fst_mem_of_mem_changed_applyReference {reference : List ℕ} {row : Row}
    (hlen : row.length ≤ reference.length) {p : Cell × Cell}
    (hp : p ∈ changed row (applyReference reference row)) :
    p.1 ∈ ((row.zip reference).dropWhile fun (c, k) => k ≤ 1 || c.colspan = k).map Prod.fst := by
  induction row generalizing reference with
  | nil => simp [changed] at hp
  | cons c row ih =>
    obtain ⟨k, reference, rfl⟩ : ∃ k rest, reference = k :: rest := by
      apply List.exists_cons_of_ne_nil
      rintro rfl
      simp at hlen
    have hlen' : row.length ≤ reference.length := by simpa using hlen
    rw [applyReference_cons] at hp
    by_cases hsame : k ≤ 1 ∨ c.colspan = k
    · rw [Cell.withReference_eq_self hsame] at hp
      simp only [changed, List.zip_cons_cons, decide_true, List.dropWhile_cons_of_pos] at hp
      rw [List.zip_cons_cons, List.dropWhile_cons_of_pos (by simpa using hsame)]
      exact ih hlen' hp
    · rw [List.zip_cons_cons, List.dropWhile_cons_of_neg (by simpa using hsame)]
      have hmem : p.1 ∈ c :: row :=
        List.of_mem_zip ((List.dropWhile_sublist _).mem hp) |>.1
      rw [← List.zip_cons_cons, List.map_fst_zip hlen]
      exact hmem

theorem changed_self (row : Row) : changed row row = [] := by
  rw [changed, List.dropWhile_eq_nil_iff]
  intro p hp
  obtain ⟨k, hk, rfl⟩ := List.mem_iff_getElem.mp hp
  simp

theorem fst_mem_of_mem_changed_widenLast {d : ℕ} {row : Row} {p : Cell × Cell}
    (hp : p ∈ changed row (widenLast d row)) : p.1 ∈ row.getLast?.toList := by
  rcases row.eq_nil_or_concat with rfl | ⟨init, last, rfl⟩
  · simp [changed] at hp
  · have hself : (init.zip init).dropWhile (fun p => decide (p.1 = p.2)) = [] := changed_self init
    rw [List.concat_eq_append] at hp ⊢
    rw [widenLast_concat, changed, List.zip_append rfl, List.dropWhile_append, hself] at hp
    have hmem := (List.dropWhile_sublist _).mem (by simpa using hp)
    obtain rfl : p = _ := List.mem_singleton.mp hmem
    simp

/-- What an adjusted row has new stands at the cells that are moved. -/
theorem fst_mem_moved {effective : ℕ} {row : Row} {p : Cell × Cell}
    (hp : p ∈ changed row (ref.adjustRow effective row)) : p.1 ∈ ref.moved effective row := by
  unfold adjustRow at hp
  unfold moved
  split_ifs at hp with hempty hreached hmatches hlen hdiff
  · simp [changed_self] at hp
  · simp [changed_self] at hp
  · rw [if_neg (by simp [hempty, hreached]), if_pos hmatches]
    exact fst_mem_of_mem_changed_applyReference hlen hp
  · simp [changed_self] at hp
  · rw [if_neg (by simp [hempty, hreached]), if_neg hmatches]
    exact fst_mem_of_mem_changed_widenLast hp
  · simp [changed_self] at hp

end Reference

/-! ## The adjusted table -/

section Adjusted

variable {rows : List Row} {start : ℕ} {ref : Reference}

/-- No cell that the adjustment widens or moves reaches into a later row. -/
def SteadyFrom (rows : List Row) (start : ℕ) (ref : Reference) : Prop :=
  ∀ k row, start ≤ k → k + 1 < rows.length → rows[k]? = some row →
    ∀ c ∈ ref.moved (calculateRowEffectiveColumns rows k) row, c.rowspan ≤ 1

/-- Every row that takes the colspans of the reference ends within the target, below the rows
above it. -/
def FitsFrom (rows : List Row) (start : ℕ) (ref : Reference) : Prop :=
  ∀ k row, start ≤ k → rows[k]? = some row →
    !ref.reached (calculateRowEffectiveColumns rows k) row → ref.matches row →
    calculateRowEffectiveColumns (rows.take k ++ [applyReference ref.referenceStructure row]) k ≤
      ref.targetCols

theorem getElem?_adjustTableRowsColspan (k : ℕ) :
    (adjustTableRowsColspan rows start rows.length ref)[k]? = rows[k]?.map fun row =>
      if start ≤ k then ref.adjustRow (calculateRowEffectiveColumns rows k) row else row := by
  rw [adjustTableRowsColspan, List.getElem?_mapIdx]
  by_cases hk : k < rows.length
  · simp [hk, calculateRowEffectiveColumns]
  · simp [List.getElem?_eq_none (not_lt.mp hk)]

theorem map_adjustTableRowsColspan {β : Type*} {f : Cell → β}
    (hf : ∀ c k, f (c.withReference k) = f c) (hf' : ∀ c d, f (c.widen d) = f c) :
    (adjustTableRowsColspan rows start rows.length ref).map (List.map f) =
      rows.map (List.map f) := by
  apply List.ext_getElem?
  intro k
  rw [List.getElem?_map, List.getElem?_map, getElem?_adjustTableRowsColspan, Option.map_map]
  congr 1
  funext row
  simp only [Function.comp_apply]
  split
  · exact ref.map_adjustRow hf hf' _ _
  · rfl

theorem flatChange_adjustTableRowsColspan (h : SteadyFrom rows start ref) :
    FlatChange Cell.rowspan rows (adjustTableRowsColspan rows start rows.length ref) where
  map_tall := map_adjustTableRowsColspan Cell.rowspan_withReference fun _ _ => rfl
  flat := by
    intro k row row' hk hrow hrow' p hp
    rw [getElem?_adjustTableRowsColspan, hrow, Option.map_some, Option.some.injEq] at hrow'
    subst row'
    split at hp
    · next hstart => exact h k row hstart hk hrow _ (ref.fst_mem_moved hp)
    · simp [Reference.changed_self] at hp

theorem calculateRowEffectiveColumns_eq {k : ℕ} {row : Row} (hrow : rows[k]? = some row) :
    calculateRowEffectiveColumns rows k =
      widthBelow Cell.colspan Cell.rowspan (rows.take k) row := by
  rw [calculateRowEffectiveColumns, buildTableOccupiedMatrix, List.getD_eq_getElem?_getD,
    getElem?_rowWidths, hrow]
  rfl

theorem calculateRowEffectiveColumns_take_concat {k : ℕ} (hk : k ≤ rows.length) (row : Row) :
    calculateRowEffectiveColumns (rows.take k ++ [row]) k =
      widthBelow Cell.colspan Cell.rowspan (rows.take k) row := by
  have hlen := List.length_take_of_le hk
  have hrow : (rows.take k ++ [row])[k]? = some row := by
    rw [List.getElem?_append_right hlen.le, hlen]
    simp
  rw [calculateRowEffectiveColumns_eq hrow, List.take_left' hlen]

theorem effective_le_total (k : ℕ) :
    calculateRowEffectiveColumns rows k ≤ calculateTableTotalColumns rows := by
  rw [calculateRowEffectiveColumns, List.getD_eq_getElem?_getD]
  rcases hw : (buildTableOccupiedMatrix rows)[k]? with _ | w
  · exact Nat.zero_le _
  · exact rowWidths_le_extent _ _ (List.mem_of_getElem? hw)

/-- A row that is widened ends with the target. -/
theorem widthBelow_widenLast_le {above : List Row} {row : Row} {w d : ℕ}
    (h : widthBelow Cell.colspan Cell.rowspan above row + d ≤ w) :
    widthBelow Cell.colspan Cell.rowspan above (widenLast d row) ≤ w := by
  rcases row.eq_nil_or_concat with rfl | ⟨init, last, rfl⟩
  · exact (Nat.le_add_right _ d).trans h
  · rw [List.concat_eq_append] at h ⊢
    rw [widenLast_concat]
    exact (widthAt_fillRow_le _ _ init le_rfl last.rowspan_pos last.colspan_pos).trans h

/-- Where no change is noticed in later rows, no row is too wide but one that takes the colspans of
the reference and does not fit. -/
theorem adjusted_le_iff (hsteady : SteadyFrom rows start ref)
    (hlen : ∀ row, ref.matches row → row.length ≤ ref.referenceStructure.length)
    (htotal : calculateTableTotalColumns rows ≤ ref.targetCols) :
    (∀ w ∈ (buildTableOccupiedMatrix
        (adjustTableRowsColspan rows start rows.length ref)).drop start,
      w ≤ ref.targetCols) ↔ FitsFrom rows start ref := by
  have hflat := flatChange_adjustTableRowsColspan hsteady
  have hwidth : ∀ k row, start ≤ k → rows[k]? = some row →
      (buildTableOccupiedMatrix (adjustTableRowsColspan rows start rows.length ref))[k]? =
        some (widthBelow Cell.colspan Cell.rowspan (rows.take k)
          (ref.adjustRow (calculateRowEffectiveColumns rows k) row)) := by
    intro k row hk hrow
    rw [buildTableOccupiedMatrix, hflat.getElem?_rowWidths, getElem?_adjustTableRowsColspan, hrow,
      Option.map_some, Option.map_some, if_pos hk]
  constructor
  · intro h k row hk hrow hreached hmatches
    have hklen : k < rows.length := (List.getElem?_eq_some_iff.mp hrow).1
    rw [calculateRowEffectiveColumns_take_concat hklen.le]
    have hmem := hwidth k row hk hrow
    rw [Reference.adjustRow_of_matches hreached hmatches (hlen row hmatches)] at hmem
    apply h
    rw [List.mem_iff_getElem?]
    exact ⟨k - start, by rw [List.getElem?_drop, Nat.add_sub_cancel' hk, hmem]⟩
  · intro h w hw
    obtain ⟨j, hj⟩ := List.mem_iff_getElem?.mp hw
    rw [List.getElem?_drop] at hj
    obtain ⟨row, hrow⟩ : ∃ row, rows[start + j]? = some row := by
      rcases hrow : rows[start + j]? with _ | row
      · rw [buildTableOccupiedMatrix, hflat.getElem?_rowWidths, getElem?_adjustTableRowsColspan,
          hrow] at hj
        simp at hj
      · exact ⟨row, rfl⟩
    have hk : start + j < rows.length := (List.getElem?_eq_some_iff.mp hrow).1
    rw [hwidth _ row (Nat.le_add_right _ _) hrow, Option.some.injEq] at hj
    subst w
    have hold : calculateRowEffectiveColumns rows (start + j) ≤ ref.targetCols :=
      (effective_le_total _).trans htotal
    have hsame := calculateRowEffectiveColumns_eq hrow
    rw [hsame] at hold
    by_cases hreached : ref.reached (calculateRowEffectiveColumns rows (start + j)) row
    · simpa [Reference.adjustRow, hreached] using hold
    · by_cases hmatches : ref.matches row
      · have hfits := h _ row (Nat.le_add_right _ _) hrow (by simpa using hreached) hmatches
        rw [calculateRowEffectiveColumns_take_concat hk.le] at hfits
        rwa [Reference.adjustRow_of_matches (by simpa using hreached) hmatches
          (hlen row hmatches)]
      · rw [Reference.adjustRow, if_neg hreached, if_neg hmatches]
        split_ifs
        · exact hold
        · apply widthBelow_widenLast_le
          rw [hsame]
          omega
        · exact hold

end Adjusted

/-! ## The merged table -/

abbrev rowTexts (rows : List Row) : List (List String) :=
  rows.map (List.map Cell.text)

/-- The rows of the second table after its header come after all rows of the first one, with the
texts of all cells. -/
def MergesRows (soup1 soup2 merged : Table) : Prop :=
  rowTexts merged.rows = rowTexts soup1.rows ++
    rowTexts (soup2.rows.drop (headerCount soup1.rows soup2.rows))

/-- No row is wider than the wider one of the tables. -/
def KeepsWidth (soup1 soup2 merged : Table) : Prop :=
  ∀ w ∈ buildTableOccupiedMatrix merged.rows,
    w ≤ max (calculateTableTotalColumns soup1.rows) (calculateTableTotalColumns soup2.rows)

/-- The rows of the first table after its first body and the rows that are appended are the same
texts in both orders; so it is where there are none of the one kind or of the other. -/
def TailCommutes (soup1 soup2 : Table) : Prop :=
  rowTexts (soup2.rows.drop (headerCount soup1.rows soup2.rows)) ++
      rowTexts (splitRows soup1.parts).2 =
    rowTexts (splitRows soup1.parts).2 ++
      rowTexts (soup2.rows.drop (headerCount soup1.rows soup2.rows))

/-- No cell is placed otherwise than in its own table as it was: if rows are appended, none of the
first table stands after its first body, no cell of the first table or of the header reaches below
it, and no cell that is widened or moved reaches into a later row. -/
def Steady (soup1 soup2 : Table) : Prop :=
  let header := headerCount soup1.rows soup2.rows
  let tableCols1 := calculateTableTotalColumns soup1.rows
  let tableCols2 := calculateTableTotalColumns soup2.rows
  ∀ lastRow1 firstDataRow2, soup1.rows.getLast? = some lastRow1 →
    soup2.rows[header]? = some firstDataRow2 →
      (splitRows soup1.parts).2 = [] ∧
      EndBy Cell.rowspan soup1.rows.length 0 soup1.rows ∧
      EndBy Cell.rowspan header 0 (soup2.rows.take header) ∧
      if tableCols2 ≤ tableCols1 then
        SteadyFrom soup2.rows header (referenceTo lastRow1 firstDataRow2 tableCols1)
      else SteadyFrom soup1.rows 0 (referenceTo firstDataRow2 lastRow1 tableCols2)

/-- The rows of the narrower table that take the colspans of the reference fit. -/
def ReferencesFit (soup1 soup2 : Table) : Prop :=
  let header := headerCount soup1.rows soup2.rows
  let tableCols1 := calculateTableTotalColumns soup1.rows
  let tableCols2 := calculateTableTotalColumns soup2.rows
  ∀ lastRow1 firstDataRow2, soup1.rows.getLast? = some lastRow1 →
    soup2.rows[header]? = some firstDataRow2 →
      if tableCols2 ≤ tableCols1 then
        FitsFrom soup2.rows header (referenceTo lastRow1 firstDataRow2 tableCols1)
      else FitsFrom soup1.rows 0 (referenceTo firstDataRow2 lastRow1 tableCols2)

section Merged

variable (rows1 rows2 : List Row)

theorem map_adjustRows {β : Type*} {f : Cell → β} (hf : ∀ c k, f (c.withReference k) = f c)
    (hf' : ∀ c d, f (c.widen d) = f c) :
    (adjustRows rows1 rows2).1.map (List.map f) = rows1.map (List.map f) ∧
      (adjustRows rows1 rows2).2.map (List.map f) = rows2.map (List.map f) := by
  simp only [adjustRows]
  split
  · split
    · exact ⟨rfl, map_adjustTableRowsColspan hf hf'⟩
    · exact ⟨map_adjustTableRowsColspan hf hf', rfl⟩
  · exact ⟨rfl, rfl⟩

theorem rowTexts_adjustRows : rowTexts (adjustRows rows1 rows2).1 = rowTexts rows1 ∧
    rowTexts (adjustRows rows1 rows2).2 = rowTexts rows2 :=
  map_adjustRows rows1 rows2 Cell.text_withReference fun _ _ => rfl

theorem length_adjustRows_fst : (adjustRows rows1 rows2).1.length = rows1.length := by
  simpa using congrArg List.length (rowTexts_adjustRows rows1 rows2).1

variable (soup1 soup2 : Table) (previous : TableBlock) (footnotes : List Block)

/-- The appended rows stand after the first body of the first table. -/
theorem rows_performTableMerge :
    (performTableMerge soup1 soup2 previous footnotes).1.rows =
      (adjustRows soup1.rows soup2.rows).1.take (splitRows soup1.parts).1.length ++
        (adjustRows soup1.rows soup2.rows).2.drop (headerCount soup1.rows soup2.rows) ++
      (adjustRows soup1.rows soup2.rows).1.drop (splitRows soup1.parts).1.length := by
  have hlen := length_adjustRows_fst soup1.rows soup2.rows
  simp only [performTableMerge, rows_appendRows, Table.withRows, splitRows_refill hlen]

theorem mergesRows_iff :
    MergesRows soup1 soup2 (performTableMerge soup1 soup2 previous footnotes).1 ↔
      TailCommutes soup1 soup2 := by
  have hsplit : rowTexts soup1.rows =
      rowTexts (splitRows soup1.parts).1 ++ rowTexts (splitRows soup1.parts).2 := by
    rw [rowTexts, rowTexts, rowTexts, ← List.map_append, splitRows_append, Table.rows]
  have hlen : (rowTexts (splitRows soup1.parts).1).length = (splitRows soup1.parts).1.length :=
    List.length_map _
  have htexts := rowTexts_adjustRows soup1.rows soup2.rows
  simp only [rowTexts] at htexts hsplit hlen
  rw [MergesRows, rows_performTableMerge, TailCommutes]
  simp only [rowTexts, List.map_append, List.map_take, List.map_drop, htexts.1, htexts.2]
  rw [hsplit, List.take_left' hlen, List.drop_left' hlen, List.append_assoc, List.append_assoc,
    List.append_cancel_left_eq]

variable {soup1 soup2} in
theorem rows_performTableMerge_of_tail (htail : (splitRows soup1.parts).2 = []) :
    (performTableMerge soup1 soup2 previous footnotes).1.rows =
      (adjustRows soup1.rows soup2.rows).1 ++
        (adjustRows soup1.rows soup2.rows).2.drop (headerCount soup1.rows soup2.rows) := by
  have hlen : (adjustRows soup1.rows soup2.rows).1.length = (splitRows soup1.parts).1.length := by
    rw [length_adjustRows_fst, Table.rows, ← splitRows_append, htail, List.append_nil]
  rw [rows_performTableMerge, List.take_of_length_le hlen.le, List.drop_of_length_le hlen.le,
    List.append_nil]

theorem referenceTo_matches {model row row' : Row} {w : ℕ}
    (h : (referenceTo model row w).matches row') :
    row'.length ≤ (referenceTo model row w).referenceStructure.length := by
  have hvisual : row'.length = model.length := of_decide_eq_true (Bool.and_eq_true_iff.mp h).1
  simp [referenceTo, hvisual]

theorem widths_le_total {rows : List Row} {w : ℕ} (hw : w ∈ buildTableOccupiedMatrix rows) :
    w ≤ calculateTableTotalColumns rows :=
  rowWidths_le_extent _ _ hw

theorem take_adjustTableRowsColspan (rows : List Row) (start : ℕ) (ref : Reference) :
    (adjustTableRowsColspan rows start rows.length ref).take start = rows.take start := by
  apply List.ext_getElem?
  intro k
  rw [List.getElem?_take, List.getElem?_take]
  split
  · next hk =>
    rw [getElem?_adjustTableRowsColspan]
    simp [not_le.mpr hk]
  · rfl

omit rows1 rows2 in
/-- The rows of the second table are adjusted and appended. -/
theorem appended_le_iff {rows1 rows2 : List Row} {header : ℕ} {ref : Reference}
    (hheader : header ≤ rows2.length) (hend1 : EndBy Cell.rowspan rows1.length 0 rows1)
    (hend2 : EndBy Cell.rowspan header 0 (rows2.take header))
    (hsteady : SteadyFrom rows2 header ref)
    (hlen : ∀ row, ref.matches row → row.length ≤ ref.referenceStructure.length)
    (htotal1 : calculateTableTotalColumns rows1 ≤ ref.targetCols)
    (htotal2 : calculateTableTotalColumns rows2 ≤ ref.targetCols) :
    (∀ w ∈ buildTableOccupiedMatrix
        (rows1 ++ (adjustTableRowsColspan rows2 header rows2.length ref).drop header),
      w ≤ ref.targetCols) ↔ FitsFrom rows2 header ref := by
  have htake := List.length_take_of_le hheader
  have hend2' : EndBy Cell.rowspan (rows2.take header).length 0 (rows2.take header) := by
    rwa [htake]
  rw [← adjusted_le_iff hsteady hlen htotal2, buildTableOccupiedMatrix,
    rowWidths_append_of_endBy Cell.colspan Cell.rowspan hend1 hend2', htake,
    ← take_adjustTableRowsColspan rows2 header ref, List.take_append_drop]
  constructor
  · exact fun h w hw => h w (List.mem_append_right _ hw)
  · intro h w hw
    rcases List.mem_append.mp hw with hw | hw
    · exact (widths_le_total hw).trans htotal1
    · exact h w hw

/-- The rows of the first table are adjusted, and those of the second one are appended. -/
theorem adjusted_append_le_iff {rows1 rows2 : List Row} {header : ℕ} {ref : Reference}
    (hheader : header ≤ rows2.length) (hend1 : EndBy Cell.rowspan rows1.length 0 rows1)
    (hend2 : EndBy Cell.rowspan header 0 (rows2.take header)) (hsteady : SteadyFrom rows1 0 ref)
    (hlen : ∀ row, ref.matches row → row.length ≤ ref.referenceStructure.length)
    (htotal1 : calculateTableTotalColumns rows1 ≤ ref.targetCols)
    (htotal2 : calculateTableTotalColumns rows2 ≤ ref.targetCols) :
    (∀ w ∈ buildTableOccupiedMatrix
        (adjustTableRowsColspan rows1 0 rows1.length ref ++ rows2.drop header),
      w ≤ ref.targetCols) ↔ FitsFrom rows1 0 ref := by
  have htake := List.length_take_of_le hheader
  have hend2' : EndBy Cell.rowspan (rows2.take header).length 0 (rows2.take header) := by
    rwa [htake]
  have hflat := flatChange_adjustTableRowsColspan hsteady
  have hend1' : EndBy Cell.rowspan (adjustTableRowsColspan rows1 0 rows1.length ref).length 0
      (adjustTableRowsColspan rows1 0 rows1.length ref) := by
    have := hend1.congr hflat.map_tall
    rwa [hflat.length_eq]
  rw [← adjusted_le_iff hsteady hlen htotal1, buildTableOccupiedMatrix,
    rowWidths_append_of_endBy Cell.colspan Cell.rowspan hend1' hend2', htake,
    List.take_append_drop, List.drop_zero]
  constructor
  · exact fun h w hw => h w (List.mem_append_left _ hw)
  · intro h w hw
    rcases List.mem_append.mp hw with hw | hw
    · exact h w hw
    · exact (widths_le_total (List.mem_of_mem_drop hw)).trans htotal2

variable {soup1 soup2} in
theorem keepsWidth_iff (h : Steady soup1 soup2) :
    KeepsWidth soup1 soup2 (performTableMerge soup1 soup2 previous footnotes).1 ↔
      ReferencesFit soup1 soup2 := by
  rcases hlast : soup1.rows.getLast? with _ | lastRow1
  · -- the first table is empty, and the second one is taken as it is
    have hnil : soup1.rows = [] := List.getLast?_eq_none_iff.mp hlast
    have htail : (splitRows soup1.parts).2 = [] := by
      have := splitRows_append soup1.parts
      rw [← Table.rows, hnil] at this
      exact (List.append_eq_nil_iff.mp this).2
    have hcount : headerCount soup1.rows soup2.rows = 0 := by
      rw [hnil]
      rfl
    have hrows : (performTableMerge soup1 soup2 previous footnotes).1.rows = soup2.rows := by
      rw [rows_performTableMerge_of_tail previous footnotes htail, hcount, List.drop_zero,
        adjustRows, hlast]
      exact congrArg (· ++ soup2.rows) hnil
    refine iff_of_true (fun w hw => ?_) fun last first hlast' => ?_
    · rw [hrows] at hw
      exact le_max_of_le_right (widths_le_total hw)
    · simp [hlast] at hlast'
  · rcases hfirst : soup2.rows[headerCount soup1.rows soup2.rows]? with _ | firstDataRow2
    · -- nothing is appended
      have hdrop : soup2.rows.drop (headerCount soup1.rows soup2.rows) = [] :=
        List.drop_of_length_le (List.getElem?_eq_none_iff.mp hfirst)
      have hrows := rows_performTableMerge soup1 soup2 previous footnotes
      simp only [adjustRows, hlast, hfirst, hdrop, List.append_nil, List.take_append_drop] at hrows
      refine iff_of_true (fun w hw => ?_) fun last first _ hfirst' => ?_
      · rw [hrows] at hw
        exact le_max_of_le_left (widths_le_total hw)
      · simp [hfirst] at hfirst'
    · obtain ⟨htail, hend1, hend2, hsteady⟩ := h lastRow1 firstDataRow2 hlast hfirst
      have hlt := (List.getElem?_eq_some_iff.mp hfirst).1
      have hheader := List.length_take_of_le hlt.le
      have hrows := @rows_performTableMerge_of_tail soup1 soup2 previous footnotes htail
      rw [KeepsWidth, hrows]
      have hfit : ReferencesFit soup1 soup2 ↔ _ :=
        ⟨fun hf => hf lastRow1 firstDataRow2 hlast hfirst, fun hf last first hlast' hfirst' => by
          obtain rfl : lastRow1 = last := Option.some.inj (hlast.symm.trans hlast')
          obtain rfl : firstDataRow2 = first := Option.some.inj (hfirst.symm.trans hfirst')
          exact hf⟩
      rw [hfit]
      simp only [adjustRows, hlast, hfirst]
      split at hsteady
      · next hle =>
        simp only [if_pos hle, max_eq_left hle]
        exact appended_le_iff hlt.le hend1 hend2 hsteady (fun _ => referenceTo_matches) le_rfl hle
      · next hle =>
        have hle' := le_of_not_ge hle
        simp only [if_neg hle, max_eq_right hle']
        exact adjusted_append_le_iff hlt.le hend1 hend2 hsteady (fun _ => referenceTo_matches) hle'
          le_rfl

end Merged

def threeColumns : Table :=
  ⟨[.group .tbody [[{ text := "x" }, { text := "y" }, { text := "z" }]]]⟩

def narrowRow : Table :=
  ⟨[.group .tbody [[{ text := "a" }, { text := "b" }]]]⟩

/-- A block that is nothing but a table. -/
def bodyBlock (t : Table) : TableBlock :=
  ⟨0, 100, [{ type := .tableBody, html := some (some t) }]⟩

def twoRowsHigh : Table :=
  ⟨[.group .tbody [[{ text := "a" }, { text := "b", rowspan := 2 }],
    [{ text := "c" }, { text := "d" }]]]⟩

def withFoot : Table :=
  ⟨[.group .tbody [[{ text := "x" }]], .group .tfoot [[{ text := "f" }]]]⟩

def oneCell : Table :=
  ⟨[.group .tbody [[{ text := "a" }]]]⟩

end RagflowMineru.MinerU.TableMerge
