import RagflowMineru.Deepdoc.TableSpans
import Mathlib.Data.List.MinMax

/-!
# Printing a table

A table is printed as HTML, or as lines of text in which the texts of the header rows stand before
those of the cells.  A header row whose texts all stood in header rows before it is not printed
again.  In HTML no text of a box is lost.
-/

namespace RagflowMineru.Deepdoc

open Library
open MinerU (strip)

attribute [local instance] MinerU.lawfulBEq_letters

/-- What `blockType` tells apart. -/
inductive BlockType
  | dt | nu | ca | en | ne | sg | tx | lx | nr | ot
  deriving DecidableEq

/-! ## Header rows -/

section Header

variable (blockType : List Char → BlockType)

/-- `max_type`: the first one of the most frequent types. -/
def maxType (boxes : List TaggedBox) : Option BlockType :=
  let types := boxes.map fun b => blockType b.text
  types.argmax fun t => types.count t

/-- The cell counts as a header. -/
def heads (maxType : Option BlockType) : List TableBox → Bool
  | [] => false
  | a :: arr =>
      if maxType = some .nu ∧ blockType a.text = .nu then false
      else ((a :: arr).any fun a => a.header.getD 0 ≠ 0) ||
        (maxType = some .nu && blockType a.text ≠ .nu)

/-- `hdset`; `none` is a `ZeroDivisionError`. -/
def headerRows (maxType : Option BlockType) (tbl : CellGrid TableBox) : Option (List ℕ) :=
  if (List.range tbl.lines).any fun i => (tbl.filled i).isEmpty then none
  else
    some ((List.range tbl.lines).filter fun i =>
      (tbl.filled i).length < 2 * ((tbl.filled i).countP fun j =>
        heads blockType maxType (tbl.cell i j)))

end Header

/-! ## HTML -/

def Span.isSet : Option Span → Bool
  | some (.places l) => l ≠ []
  | some (.size n) => n ≠ 0
  | none => false

def Span.print : Option Span → List Char
  | some (.places l) =>
      "[".toList ++ ", ".toList.intercalate (l.map fun n => (toString n).toList) ++ "]".toList
  | some (.size n) => (toString n).toList
  | none => []

/-- `sp` -/
def spanAttributes (a : TableBox) : List Char :=
  (if Span.isSet a.colspan then "colspan=".toList ++ Span.print a.colspan else []) ++
    if Span.isSet a.rowspan then " rowspan=".toList ++ Span.print a.rowspan else []

section Html

variable (S : CmpSort)

/-- The boxes of a cell, line by line. -/
def readingOrder (arr : List TableBox) : List TableBox :=
  sortYFirstly S arr (min (((arr.map fun c => c.bottom - c.top).min?.getD 0) / 2) 10)

def cellText (arr : List TableBox) : List Char :=
  " ".toList.intercalate ((readingOrder S arr).map fun c => c.text)

def printCell (header : Bool) : Option (List TableBox) → List Char
  | none => []
  | some [] => if header then "<th></th>".toList else "<td></td>".toList
  | some (a :: arr) =>
      let tag := if header then "th".toList else "td".toList
      '<' :: tag ++ ' ' :: spanAttributes a ++ " >".toList ++ cellText S (a :: arr) ++
        "</".toList ++ tag ++ ">".toList

/-- `txts` -/
def cellTexts (cells : List (Option (List TableBox))) : List (List Char) :=
  cells.filterMap fun cell =>
    match cell with
    | some (a :: arr) => some (cellText S (a :: arr))
    | _ => none

def printRow (header : Bool) (cells : List (Option (List TableBox))) : List Char :=
  let row := "<tr>".toList ++ cells.flatMap (printCell S header)
  if row ≠ "<tr>".toList then row ++ "</tr>".toList else []

/-- The texts of the header rows and what has been printed. -/
structure HtmlState where
  seen : List (List Char)
  html : List Char

def htmlStep (hdset : List ℕ) (tbl : SpanTable) (st : HtmlState) (i : ℕ) : HtmlState :=
  let cells := (List.range tbl.cols).map (tbl.cell i)
  let header := decide (i ∈ hdset)
  if header ∧ (cellTexts S cells).all (· ∈ st.seen) then st
  else
    ⟨if header then st.seen ++ cellTexts S cells else st.seen,
      st.html ++ '\n' :: printRow S header cells⟩

/-- `__html_table` -/
def htmlTable (cap : List Char) (hdset : List ℕ) (tbl : SpanTable) : List Char :=
  let caption := if cap ≠ [] then "<caption>".toList ++ cap ++ "</caption>".toList else []
  ((List.range tbl.rows).foldl (htmlStep S hdset tbl) ⟨[], "<table>".toList ++ caption⟩).html ++
    "\n</table>".toList

end Html

/-! ## Lines of text -/

/-- The texts of the header rows; a row that has none is no header. -/
abbrev Headers := ℕ → Option (List (List Char))

def Headers.set (headers : Headers) (r : ℕ) (texts : List (List Char)) : Headers := fun k =>
  if k = r then some texts else headers k

structure Headings where
  headers : Headers
  lstHdr : List (List Char)

/-- A header row; its empty cells have the texts of the header row before. -/
def headingStep (tbl : SpanTable) (st : Headings) (r : ℕ) : Headings :=
  let texts := (List.range tbl.cols).map fun i =>
    " ".toList.intercalate ((tbl.boxesAt r i).map fun a => strip a.text)
  if texts.all (· = []) then st
  else
    let filled := texts.mapIdx fun j txt => if txt ≠ [] then txt else st.lstHdr.getD j []
    ⟨st.headers.set r filled, filled⟩

def joinHeader (de above own : List Char) : List Char :=
  if above = [] then own
  else if above <:+: own then own
  else if above.length < own.length then own ++ (if own ≠ [] then de else []) ++ above
  else above ++ (if above ≠ [] then de else []) ++ own

def extendHeader (de : List Char) (headers : Headers) (j : ℕ) : Headers :=
  match headers (j - 1), headers j with
  | some above, some own => headers.set j (List.zipWith (joinHeader de) above own)
  | _, _ => headers

/-- The header rows that follow one another are joined. -/
def joinHeaders (de : List Char) (rowno : ℕ) (headers : Headers) : Headers :=
  (List.range rowno).foldl (fun headers i =>
    if (headers i).isSome then
      ((List.range' (i + 1) (rowno - (i + 1))).takeWhile fun j => (headers j).isSome).foldl
        (extendHeader de) headers
    else headers) headers

/-- `append`; short lines are joined. -/
def appendShort (rowTxt : List (List Char)) (line : List Char) : List (List Char) :=
  match rowTxt.getLast? with
  | some last =>
      if last.length + line.length < 64 then rowTxt.dropLast ++ [last ++ '\n' :: line]
      else rowTxt ++ [line]
  | none => [line]

def strippedText (arr : List TableBox) : List Char := arr.flatMap fun a => strip a.text

/-- The texts of a row, each behind that of the last header row before it. -/
def dataTexts (headers : Headers) (tbl : SpanTable) (i r : ℕ) : List (List Char) :=
  (List.range tbl.cols).filterMap fun j =>
    let txt := strippedText (tbl.boxesAt i j)
    let ctt := (headers r).elim [] (·.getD j [])
    if txt = [] then none else some ((if ctt ≠ [] then ctt ++ "：".toList else []) ++ txt)

def describeStep (headers : Headers) (tbl : SpanTable) (rowTxt : List (List Char)) (i : ℕ) :
    List (List Char) :=
  if (headers i).isSome then rowTxt
  else
    let r := ((List.range i).filter fun r => (headers r).isSome).getLast?.getD 0
    let rtxt := dataTexts headers tbl i r
    if rtxt = [] then rowTxt
    else if headers r = none ∧ tbl.cols ≤ 2 then appendShort rowTxt ("：".toList.intercalate rtxt)
    else rowTxt ++ ["; ".toList.intercalate rtxt]

/-- `__desc_table` -/
def descTable (cap : List Char) (hdrRowno : List ℕ) (tbl : SpanTable) (isEnglish : Bool) :
    List (List Char) :=
  let de := if isEnglish then " for ".toList else "的".toList
  let read := hdrRowno.foldl (headingStep tbl) ⟨fun _ => none, []⟩
  let headers := joinHeaders de tbl.rows read.headers
  let rowTxt := (List.range tbl.rows).foldl (describeStep headers tbl) []
  if cap ≠ [] then
    let from_ := if isEnglish then " in ".toList else "来自".toList
    rowTxt.map fun t => t ++ "\t——".toList ++ from_ ++ "“".toList ++ cap ++ "”".toList
  else rowTxt

/-! ## The whole table -/

inductive TableText
  | html (s : List Char)
  | lines (l : List (List Char))

/-- `cap`, out of the boxes that are popped -/
def captionText (boxes : List TaggedBox) (isEnglish : Bool) : List Char :=
  (boxes.filter fun b => b.isCaption).flatMap fun b =>
    (if isEnglish then " ".toList else []) ++ b.text

/-- `construct_table`; the loop over the captions keeps its cursor where a box is popped. -/
def constructTable (S : CmpSort) (blockType : List Char → BlockType) (boxes : List TaggedBox)
    (isEnglish html : Bool) : Option TableText :=
  let cap := captionText boxes isEnglish
  let boxes := boxes.filter fun b => !b.isCaption
  if boxes = [] then some (.lines [])
  else
    (layTable S boxes).bind fun t =>
      (headerRows blockType (maxType blockType boxes) t.tbl).bind fun hdset =>
        (calSpans html t).map fun tbl =>
          if html then .html (htmlTable S cap hdset tbl)
          else .lines (descTable cap hdset tbl isEnglish)

/-! ## What is printed -/

theorem infix_flatMap {α β : Type*} {f : α → List β} {l : List α} {a : α} (ha : a ∈ l) :
    f a <:+: l.flatMap f := by
  rw [List.flatMap_def]
  exact List.infix_of_mem_flatten (List.mem_map_of_mem ha)

section Html

variable {S : CmpSort} {hdset : List ℕ} {tbl : SpanTable} {st : HtmlState} {i j : ℕ}
  {header : Bool} {a : TableBox} {arr : List TableBox} {cells : List (Option (List TableBox))}
  {txt : List Char}

theorem cellText_infix_printCell :
    cellText S (a :: arr) <:+: printCell S header (some (a :: arr)) := by
  rw [printCell, List.append_assoc _ _ ">".toList, List.append_assoc _ "</".toList]
  exact List.infix_append _ _ _

theorem mem_cellTexts (htxt : txt ∈ cellTexts S cells) :
    ∃ a arr, some (a :: arr) ∈ cells ∧ cellText S (a :: arr) = txt := by
  obtain ⟨cell, hcell, htxt⟩ := List.mem_filterMap.mp htxt
  split at htxt
  · exact ⟨_, _, hcell, Option.some_injective _ htxt⟩
  · exact absurd htxt (Option.some_ne_none txt).symm

/-- A text of a row is printed in it. -/
theorem infix_printRow (htxt : txt ∈ cellTexts S cells) : txt <:+: printRow S header cells := by
  obtain ⟨a, arr, hcell, rfl⟩ := mem_cellTexts htxt
  have hflat : cellText S (a :: arr) <:+: cells.flatMap (printCell S header) :=
    cellText_infix_printCell.trans (infix_flatMap hcell)
  have hrow : "<tr>".toList ++ cells.flatMap (printCell S header) ≠ "<tr>".toList := by
    intro h
    have hnil : cells.flatMap (printCell S header) = [] := List.append_right_eq_self.mp h
    have hcellnil := List.flatMap_eq_nil_iff.mp hnil _ hcell
    rw [printCell] at hcellnil
    simp at hcellnil
  rw [printRow, if_pos hrow]
  exact hflat.trans (List.infix_append _ _ _)

/-- The texts that are known from header rows stand in what has been printed. -/
def HtmlState.Sound (st : HtmlState) : Prop := ∀ t ∈ st.seen, t <:+: st.html

theorem prefix_htmlStep : st.html <+: (htmlStep S hdset tbl st i).html := by
  rw [htmlStep]
  split_ifs
  · exact List.prefix_rfl
  · exact List.prefix_append _ _
  · exact List.prefix_append _ _

/-- After its row a text is in what has been printed, also where the row is left out. -/
theorem infix_htmlStep (hst : st.Sound)
    (htxt : txt ∈ cellTexts S ((List.range tbl.cols).map (tbl.cell i))) :
    txt <:+: (htmlStep S hdset tbl st i).html := by
  have hrow : txt <:+: st.html ++ '\n' :: printRow S (decide (i ∈ hdset))
      ((List.range tbl.cols).map (tbl.cell i)) :=
    ((infix_printRow htxt).trans (List.suffix_cons _ _).isInfix).trans
      (List.suffix_append _ _).isInfix
  rw [htmlStep]
  split_ifs with hskip
  · exact hst txt (of_decide_eq_true (List.all_eq_true.mp hskip.2 txt htxt))
  · exact hrow
  · exact hrow

theorem sound_htmlStep (hst : st.Sound) : (htmlStep S hdset tbl st i).Sound := by
  intro txt htxt
  by_cases hold : txt ∈ st.seen
  · exact (hst txt hold).trans prefix_htmlStep.isInfix
  · refine infix_htmlStep hst ?_
    rw [htmlStep] at htxt
    split_ifs at htxt
    · exact absurd htxt hold
    · exact (List.mem_append.mp htxt).resolve_left hold
    · exact absurd htxt hold

theorem prefix_foldl_htmlStep (rows : List ℕ) :
    st.html <+: (rows.foldl (htmlStep S hdset tbl) st).html := by
  induction rows generalizing st with
  | nil => exact List.prefix_rfl
  | cons i rows ih => exact prefix_htmlStep.trans ih

theorem sound_foldl_htmlStep (hst : st.Sound) (rows : List ℕ) :
    (rows.foldl (htmlStep S hdset tbl) st).Sound := by
  induction rows generalizing st with
  | nil => exact hst
  | cons i rows ih => exact ih (sound_htmlStep hst)

/-- Every cell with boxes is printed, in its row or in an earlier header row. -/
theorem infix_htmlTable {cap : List Char} (hi : i < tbl.rows) (hj : j < tbl.cols)
    (hcell : tbl.cell i j = some (a :: arr)) :
    cellText S (a :: arr) <:+: htmlTable S cap hdset tbl := by
  have htxt : cellText S (a :: arr) ∈ cellTexts S ((List.range tbl.cols).map (tbl.cell i)) := by
    refine List.mem_filterMap.mpr ⟨some (a :: arr), ?_, rfl⟩
    exact hcell ▸ List.mem_map_of_mem (List.mem_range.mpr hj)
  obtain ⟨before, behind, hrange⟩ := List.append_of_mem (List.mem_range.mpr hi)
  rw [htmlTable, hrange, List.foldl_append, List.foldl_cons]
  refine ((infix_htmlStep ?_ htxt).trans (prefix_foldl_htmlStep behind).isInfix).trans
    (List.prefix_append _ _).isInfix
  exact sound_foldl_htmlStep (fun t ht => absurd ht List.not_mem_nil) before

theorem caption_infix_htmlTable {cap : List Char} : cap <:+: htmlTable S cap hdset tbl := by
  by_cases hcap : cap = []
  · exact hcap ▸ List.nil_infix
  · rw [htmlTable, if_pos hcap]
    refine List.IsInfix.trans ?_ (List.prefix_append _ _).isInfix
    refine List.IsInfix.trans ?_ (prefix_foldl_htmlStep _).isInfix
    exact (List.infix_append _ _ _).trans (List.suffix_append _ _).isInfix

end Html

section Lines

variable {headers : Headers} {tbl : SpanTable} {rowTxt : List (List Char)} {i j : ℕ}
  {line txt : List Char}

/-- A line has the text. -/
def InLines (txt : List Char) (lines : List (List Char)) : Prop := ∃ line ∈ lines, txt <:+: line

theorem InLines.append (h : InLines txt rowTxt) (lines : List (List Char)) :
    InLines txt (rowTxt ++ lines) :=
  h.imp fun _ h => ⟨List.mem_append_left lines h.1, h.2⟩

theorem inLines_concat (h : txt <:+: line) : InLines txt (rowTxt ++ [line]) :=
  ⟨line, List.mem_append_right rowTxt List.mem_cons_self, h⟩

theorem InLines.appendShort (h : InLines txt rowTxt) : InLines txt (appendShort rowTxt line) := by
  rw [Deepdoc.appendShort]
  split
  · next last hlast =>
      obtain ⟨front, rfl⟩ := List.getLast?_eq_some_iff.mp hlast
      split_ifs
      · rw [List.dropLast_concat]
        obtain ⟨l, hl, htxt⟩ := h
        rcases List.mem_append.mp hl with hl | hl
        · exact InLines.append ⟨l, hl, htxt⟩ _
        · obtain rfl := List.mem_singleton.mp hl
          exact inLines_concat (htxt.trans (List.prefix_append _ _).isInfix)
      · exact h.append _
  · next hlast =>
      obtain ⟨l, hl, -⟩ := h
      rw [List.getLast?_eq_none_iff.mp hlast] at hl
      exact absurd hl List.not_mem_nil

theorem inLines_appendShort (h : txt <:+: line) : InLines txt (appendShort rowTxt line) := by
  rw [appendShort]
  split
  · split_ifs
    · exact inLines_concat ((h.trans (List.suffix_cons _ _).isInfix).trans
        (List.suffix_append _ _).isInfix)
    · exact inLines_concat h
  · exact ⟨line, List.mem_cons_self, h⟩

theorem infix_intercalate {sep : List Char} {l : List (List Char)} (h : txt ∈ l) :
    txt <:+: sep.intercalate l := by
  obtain ⟨k, hk⟩ := List.mem_iff_getElem?.mp h
  have hmem : txt ∈ l.intersperse sep :=
    List.mem_iff_getElem?.mpr ⟨2 * k, List.getElem?_intersperse_two_mul.trans hk⟩
  exact List.infix_of_mem_flatten hmem

theorem InLines.describeStep (h : InLines txt rowTxt) :
    InLines txt (describeStep headers tbl rowTxt i) := by
  rw [Deepdoc.describeStep]
  dsimp only
  split_ifs
  · exact h
  · exact h
  · exact h.appendShort
  · exact h.append _

/-- A text of a data row stands in a line. -/
theorem inLines_describeStep (hi : headers i = none) (hj : j < tbl.cols)
    (hne : strippedText (tbl.boxesAt i j) ≠ []) :
    InLines (strippedText (tbl.boxesAt i j)) (describeStep headers tbl rowTxt i) := by
  have htext (r : ℕ) : ∃ txt ∈ dataTexts headers tbl i r,
      strippedText (tbl.boxesAt i j) <:+: txt := by
    refine ⟨_, List.mem_filterMap.mpr ⟨j, List.mem_range.mpr hj, if_neg hne⟩, ?_⟩
    exact (List.suffix_append _ _).isInfix
  rw [describeStep, if_neg (by rw [hi]; exact Bool.false_ne_true)]
  obtain ⟨txt, htxt, hinside⟩ :=
    htext (((List.range i).filter fun r => (headers r).isSome).getLast?.getD 0)
  rw [if_neg (List.ne_nil_of_mem htxt)]
  split_ifs
  · exact inLines_appendShort (hinside.trans (infix_intercalate htxt))
  · exact inLines_concat (hinside.trans (infix_intercalate htxt))

theorem inLines_foldl_describeStep (h : InLines txt rowTxt) (rows : List ℕ) :
    InLines txt (rows.foldl (describeStep headers tbl) rowTxt) := by
  induction rows generalizing rowTxt with
  | nil => exact h
  | cons i rows ih => exact ih h.describeStep

theorem joinHeaders_none (de : List Char) (rowno : ℕ) :
    joinHeaders de rowno (fun _ => none) = fun _ => none := by
  rw [joinHeaders]
  induction List.range rowno with
  | nil => rfl
  | cons i rows ih => exact ih

/-- Without header rows every cell is in a line. -/
theorem inLines_descTable {cap : List Char} {isEnglish : Bool} (hi : i < tbl.rows)
    (hj : j < tbl.cols) (hne : strippedText (tbl.boxesAt i j) ≠ []) :
    InLines (strippedText (tbl.boxesAt i j)) (descTable cap [] tbl isEnglish) := by
  obtain ⟨before, behind, hrange⟩ := List.append_of_mem (List.mem_range.mpr hi)
  have hlines : InLines (strippedText (tbl.boxesAt i j))
      ((List.range tbl.rows).foldl (describeStep (fun _ => none) tbl) []) := by
    rw [hrange, List.foldl_append, List.foldl_cons]
    exact inLines_foldl_describeStep (inLines_describeStep rfl hj hne) behind
  rw [descTable, List.foldl_nil, joinHeaders_none]
  by_cases hcap : cap ≠ []
  · rw [if_pos hcap]
    obtain ⟨line, hline, htxt⟩ := hlines
    refine ⟨_, List.mem_map_of_mem hline, ?_⟩
    simp only [List.append_assoc]
    exact htxt.trans (List.prefix_append _ _).isInfix
  · rw [if_neg hcap]
    exact hlines

end Lines

/-! ## The assembly as a whole -/

section Construct

variable {blockType : List Char → BlockType} {boxes : List TaggedBox}

theorem exists_headerRows (blockType : List Char → BlockType) (maxType : Option BlockType)
    {tbl : CellGrid TableBox} (htbl : tbl.Full) :
    ∃ hdset, headerRows blockType maxType tbl = some hdset := by
  refine ⟨_, if_neg fun h => ?_⟩
  obtain ⟨i, hi, hempty⟩ := List.any_eq_true.mp h
  obtain ⟨p, hp, hne⟩ := htbl.line i (List.mem_range.mp hi)
  have hmem := CellGrid.mem_filled.mpr ⟨hp, hne⟩
  rw [List.isEmpty_iff.mp hempty] at hmem
  exact absurd hmem List.not_mem_nil

theorem Compact.filter (h : Compact boxes) (p : TaggedBox → Bool) : Compact (boxes.filter p) :=
  ⟨fun a ha b hb => h.across a (List.mem_of_mem_filter ha) b (List.mem_of_mem_filter hb),
    fun a ha b hb => h.down a (List.mem_of_mem_filter ha) b (List.mem_of_mem_filter hb)⟩

/-- What is printed is a table that displays the texts of all boxes but the captions. -/
theorem constructTable_eq (S : CmpSort) (blockType : List Char → BlockType)
    (hnear : Compact boxes) (hne : boxes.filter (fun b => !b.isCaption) ≠ [])
    (isEnglish html : Bool) :
    ∃ (t : Layout) (hdset : List ℕ) (tbl : SpanTable),
      t.Holds (boxes.filter fun b => !b.isCaption) ∧
      headerRows blockType (maxType blockType (boxes.filter fun b => !b.isCaption)) t.tbl =
        some hdset ∧
      tbl.Shows (boxes.filter fun b => !b.isCaption) ∧
      constructTable S blockType boxes isEnglish html =
        some (if html then .html (htmlTable S (captionText boxes isEnglish) hdset tbl)
          else .lines (descTable (captionText boxes isEnglish) hdset tbl isEnglish)) := by
  obtain ⟨t, hlay, ht⟩ := holds_layTable S (hnear.filter fun b => !b.isCaption)
  obtain ⟨hdset, hhdset⟩ := exists_headerRows blockType
    (maxType blockType (boxes.filter fun b => !b.isCaption)) ht.full
  obtain ⟨tbl, hspans, htbl⟩ := calSpans_spec html ht
  refine ⟨t, hdset, tbl, ht, hhdset, htbl, ?_⟩
  rw [constructTable, if_neg hne, hlay, Option.bind_some, hhdset, Option.bind_some, hspans,
    Option.map_some]

theorem mem_filter_of_not_caption {b : TaggedBox} (hb : b ∈ boxes) (hcap : b.isCaption = false) :
    b ∈ boxes.filter fun b => !b.isCaption :=
  List.mem_filter.mpr ⟨hb, by rw [hcap]; rfl⟩

/-- Without header tags, and where numbers are not the most frequent, no row is a header. -/
theorem headerRows_nil {maxType : Option BlockType} {tbl : CellGrid TableBox} {hdset : List ℕ}
    (hheader : ∀ i j a, tbl.Holds i j a → a.header.getD 0 = 0) (hnumbers : maxType ≠ some .nu)
    (hrows : headerRows blockType maxType tbl = some hdset) : hdset = [] := by
  have hheads {i j : ℕ} (hi : i < tbl.lines) (hj : j < tbl.across) :
      heads blockType maxType (tbl.cell i j) = false := by
    cases hcell : tbl.cell i j with
    | nil => rfl
    | cons a arr =>
        have hany : ((a :: arr).any fun a => a.header.getD 0 ≠ 0) = false := by
          refine List.any_eq_false.mpr fun b hb => ?_
          rw [hheader i j b ⟨hi, hj, hcell ▸ hb⟩]
          simp
        rw [heads, if_neg fun h => hnumbers h.1, hany, decide_eq_false hnumbers]
        rfl
  rw [headerRows] at hrows
  split_ifs at hrows
  obtain rfl := Option.some_injective _ hrows
  refine List.filter_eq_nil_iff.mpr fun i hi => ?_
  have hcount : ((tbl.filled i).countP fun j => heads blockType maxType (tbl.cell i j)) = 0 := by
    refine List.countP_eq_zero.mpr fun j hj => ?_
    rw [hheads (List.mem_range.mp hi) (CellGrid.mem_filled.mp hj).1]
    exact Bool.false_ne_true
  rw [hcount]
  simp

/-- The assembly of a table never fails, in either mode. -/
theorem isSome_constructTable (S : CmpSort) (blockType : List Char → BlockType)
    (hnear : Compact boxes) (isEnglish html : Bool) :
    (constructTable S blockType boxes isEnglish html).isSome := by
  by_cases hne : boxes.filter (fun b => !b.isCaption) = []
  · rw [constructTable, if_pos hne]
    rfl
  · obtain ⟨t, hdset, tbl, -, -, -, heq⟩ := constructTable_eq S blockType hnear hne isEnglish html
    rw [heq]
    rfl

theorem isSome_constructTable_captioned :
    (constructTable .stable (fun _ => .en) captioned false true).isSome :=
  isSome_constructTable .stable (fun _ => .en) compact_captioned false true

end Construct

end RagflowMineru.Deepdoc
