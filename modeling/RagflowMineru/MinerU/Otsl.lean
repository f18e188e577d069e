import Mathlib.Data.List.DropRight
import RagflowMineru.Document.TaskReuse
import RagflowMineru.Library.Html
import RagflowMineru.Library.Tags

/-!
# OTSL tables to HTML

A table recognition model writes a table in OTSL: a token for each place of the
grid, and the text of a cell behind the token of its first place.  The spans of a
cell are counted from the tokens that continue it to the right and below.
-/

namespace RagflowMineru.MinerU

open Library

inductive Otsl where
  | nl | fcel | ecel | lcel | ucel | xcel
  deriving DecidableEq

def Otsl.text : Otsl → List Char
  | nl => "<nl>".toList
  | fcel => "<fcel>".toList
  | ecel => "<ecel>".toList
  | lcel => "<lcel>".toList
  | ucel => "<ucel>".toList
  | xcel => "<xcel>".toList

/-- The tokens in the order of the pattern. -/
def Otsl.all : List Otsl := [nl, fcel, ecel, lcel, ucel, xcel]

/-- A part of a text that is split at its tokens. -/
inductive OtslPart where
  | token (t : Otsl)
  | text (s : List Char)
  deriving DecidableEq

def OtslPart.str : OtslPart → List Char
  | token t => t.text
  | text s => s

/-- Texts are compared letter by letter. -/
theorem lawfulBEq_letters : LawfulBEq (List Char) := inferInstance

/-- `str.strip`. -/
def strip (s : List Char) : List Char :=
  (s.dropWhile Document.isSpace).rdropWhile Document.isSpace

def otslExtractTokensAndText (s : List Char) : List Otsl × List OtslPart :=
  let (text, rest) := splitAll Otsl.text Otsl.all s
  (rest.map Prod.fst,
    (.text text :: rest.flatMap fun p => [.token p.1, .text p.2]).filter (strip ·.str ≠ []))

/-! ## Cells -/

structure TableCell where
  rowSpan : ℕ := 1
  colSpan : ℕ := 1
  startRowOffsetIdx : ℕ
  endRowOffsetIdx : ℕ
  startColOffsetIdx : ℕ
  endColOffsetIdx : ℕ
  text : List Char
  columnHeader : Bool := false
  deriving DecidableEq

def splitRowTokens (tokens : List Otsl) : List (List Otsl) :=
  (tokens.splitOnP (· = .nl)).filter (· ≠ [])

def maxCols (rows : List (List Otsl)) : ℕ := (rows.map List.length).foldr max 0

/-- Insert additional tokens of empty cells into short rows. -/
def padRows (rows : List (List Otsl)) : List (List Otsl) :=
  rows.map fun row => row.rightpad (maxCols rows) .ecel

/-- A token of a row is written, with the text that follows it; `texts` are the parts that are
not used yet. -/
def addToken (s : List OtslPart × List OtslPart) (token : Otsl) :
    List OtslPart × List OtslPart :=
  let (newTexts, texts) := s
  match texts with
  | .token token' :: rest =>
      if token' = token then
        match rest with
        | .text text :: rest => (newTexts ++ [.token token, .text text], rest)
        | _ => (newTexts ++ [.token token], rest)
      else (newTexts ++ [.token token], texts)
  | _ => (newTexts ++ [.token token], texts)

def addRow (s : List OtslPart × List OtslPart) (row : List Otsl) :
    List OtslPart × List OtslPart :=
  let (newTexts, texts) := row.foldl addToken s
  (newTexts ++ [.token .nl],
    match texts with
    | .token .nl :: rest => rest
    | _ => texts)

def padTexts (rows : List (List Otsl)) (texts : List OtslPart) : List OtslPart :=
  (rows.foldl addRow ([], texts)).1

def countRight (tokens : List (List Otsl)) (cIdx rIdx : ℕ) (whichTokens : List Otsl) : ℕ :=
  (((tokens.getD rIdx []).drop cIdx).takeWhile (· ∈ whichTokens)).length

def countDown (tokens : List (List Otsl)) (cIdx rIdx : ℕ) (whichTokens : List Otsl) : ℕ :=
  (((tokens.drop rIdx).map (·.getD cIdx .nl)).takeWhile (· ∈ whichTokens)).length

/-- The cell of a token; `rest` are the texts behind it. -/
def otslCell (rows : List (List Otsl)) (rIdx cIdx : ℕ) (token : Otsl) (rest : List OtslPart) :
    TableCell :=
  let (cellText, right) :=
    if token = .ecel then ([], rest) else ((rest.head?.map OtslPart.str).getD [], rest.tail)
  let nextRightCell := right.head?
  let nextBottomCell := (rows[rIdx + 1]?).bind (·[cIdx]?)
  let colSpan := 1 +
    if nextRightCell = some (.token .lcel) ∨ nextRightCell = some (.token .xcel) then
      countRight rows (cIdx + 1) rIdx [.lcel, .xcel]
    else 0
  let rowSpan := 1 +
    if nextBottomCell = some .ucel ∨ nextBottomCell = some .xcel then
      countDown rows cIdx (rIdx + 1) [.ucel, .xcel]
    else 0
  { rowSpan, colSpan
    startRowOffsetIdx := rIdx
    endRowOffsetIdx := rIdx + rowSpan
    startColOffsetIdx := cIdx
    endColOffsetIdx := cIdx + colSpan
    text := strip cellText }

/-- The loop over the texts, from a place of the grid on. -/
def otslCells (rows : List (List Otsl)) : ℕ → ℕ → List OtslPart → List TableCell
  | _, _, [] => []
  | rIdx, cIdx, .text _ :: rest => otslCells rows rIdx cIdx rest
  | rIdx, _, .token .nl :: rest => otslCells rows (rIdx + 1) 0 rest
  | rIdx, cIdx, .token .fcel :: rest =>
      otslCell rows rIdx cIdx .fcel rest :: otslCells rows rIdx (cIdx + 1) rest
  | rIdx, cIdx, .token .ecel :: rest =>
      otslCell rows rIdx cIdx .ecel rest :: otslCells rows rIdx (cIdx + 1) rest
  | rIdx, cIdx, .token _ :: rest => otslCells rows rIdx (cIdx + 1) rest

def otslParseTexts (texts : List OtslPart) (tokens : List Otsl) :
    List TableCell × List (List Otsl) :=
  let rows := padRows (splitRowTokens tokens)
  let texts := if rows = [] then texts else padTexts rows texts
  (otslCells rows 0 0 texts, rows)

/-! ## HTML -/

structure TableData where
  tableCells : List TableCell := []
  numRows : ℕ := 0
  numCols : ℕ := 0

def TableCell.Fills (cell : TableCell) (numRows numCols i j : ℕ) : Prop :=
  (min cell.startRowOffsetIdx numRows ≤ i ∧ i < min cell.endRowOffsetIdx numRows) ∧
    min cell.startColOffsetIdx numCols ≤ j ∧ j < min cell.endColOffsetIdx numCols

instance (cell : TableCell) (numRows numCols i j : ℕ) :
    Decidable (cell.Fills numRows numCols i j) := inferInstanceAs (Decidable (_ ∧ _))

/-- Empty cells, overwritten by the cells of the table. -/
def TableData.grid (table : TableData) : ℕ → ℕ → TableCell :=
  table.tableCells.foldl
    (fun grid cell i j => if cell.Fills table.numRows table.numCols i j then cell else grid i j)
    fun i j =>
      { text := []
        startRowOffsetIdx := i
        endRowOffsetIdx := i + 1
        startColOffsetIdx := j
        endColOffsetIdx := j + 1 }

/-- `html.escape`. -/
def htmlEscape (s : List Char) : List Char :=
  s.flatMap fun c =>
    if c = '&' then "&amp;".toList
    else if c = '<' then "&lt;".toList
    else if c = '>' then "&gt;".toList
    else if c = '"' then "&quot;".toList
    else if c = '\'' then "&#x27;".toList
    else [c]

/-- What a place of the grid adds to its row. -/
def cellHtml (cell : TableCell) (i j : ℕ) : List Char :=
  if cell.startRowOffsetIdx ≠ i then []
  else if cell.startColOffsetIdx ≠ j then []
  else
    let content := htmlEscape (strip cell.text)
    let celltag := if cell.columnHeader then "th".toList else "td".toList
    "<".toList ++ celltag ++
      (if cell.rowSpan > 1 then
        " rowspan=\"".toList ++ Nat.toDigits 10 cell.rowSpan ++ "\"".toList else []) ++
      (if cell.colSpan > 1 then
        " colspan=\"".toList ++ Nat.toDigits 10 cell.colSpan ++ "\"".toList else []) ++
      ">".toList ++ content ++ "</".toList ++ celltag ++ ">".toList

def exportToHtml (table : TableData) : List Char :=
  if table.tableCells = [] then []
  else
    "<table>".toList ++
      ((List.range table.numRows).flatMap fun i =>
        "<tr>".toList ++
          ((List.range table.numCols).flatMap fun j => cellHtml (table.grid i j) i j) ++
          "</tr>".toList) ++
      "</table>".toList

def convertOtslToHtml (otslContent : List Char) : List Char :=
  let (tokens, mixedTexts) := otslExtractTokensAndText otslContent
  let (tableCells, splitRowTokens) := otslParseTexts mixedTexts tokens
  exportToHtml { numRows := splitRowTokens.length, numCols := maxCols splitRowTokens, tableCells }

/-! ## Writing a tiling in OTSL -/

/-- A text for a cell: there is more than white space in it, and no token. -/
abbrev CellText : Type :=
  { s : List Char // strip s ≠ [] ∧ ∀ token ∈ Otsl.all, ¬ token.text <:+: s }

section

variable {rows cols : ℕ} (t : Tiling rows cols (Option CellText))

def tokenAt (i j : ℕ) : Otsl :=
  if t.Corner i j then if (t.cellAt i j).content.isSome then .fcel else .ecel
  else if (t.cellAt i j).top = i then .lcel
  else if (t.cellAt i j).left = j then .ucel
  else .xcel

def textAt (i j : ℕ) : List Char :=
  if t.Corner i j then ((t.cellAt i j).content.map Subtype.val).getD [] else []

/-- A row of the tiling: the tokens of its places with what follows them. -/
def otslRow (i : ℕ) : List (Otsl × List Char) :=
  (List.range cols).map (fun j => (tokenAt t i j, textAt t i j)) ++ [(.nl, [])]

def writeOtsl : List Char :=
  joinAll Otsl.text [] ((List.range rows).flatMap (otslRow t))

end

/-! ## Reading it back -/

/-- What is kept of a text. -/
def textParts (s : List Char) : List OtslPart := if s = [] then [] else [.text s]

/-- The parts of a token with what follows it. -/
def partsOf (p : Otsl × List Char) : List OtslPart := .token p.1 :: textParts p.2

theorem isTag_text (token : Otsl) : IsTag '<' '>' token.text := by
  cases token
  · exact ⟨⟨_, rfl, by decide⟩, ⟨"<nl".toList, rfl, by decide⟩⟩
  · exact ⟨⟨_, rfl, by decide⟩, ⟨"<fcel".toList, rfl, by decide⟩⟩
  · exact ⟨⟨_, rfl, by decide⟩, ⟨"<ecel".toList, rfl, by decide⟩⟩
  · exact ⟨⟨_, rfl, by decide⟩, ⟨"<lcel".toList, rfl, by decide⟩⟩
  · exact ⟨⟨_, rfl, by decide⟩, ⟨"<ucel".toList, rfl, by decide⟩⟩
  · exact ⟨⟨_, rfl, by decide⟩, ⟨"<xcel".toList, rfl, by decide⟩⟩

theorem mem_all (token : Otsl) : token ∈ Otsl.all := by
  cases token <;> decide

theorem strip_text_ne_nil (token : Otsl) : strip token.text ≠ [] := by
  cases token <;> decide

theorem free_nil (token : Otsl) : ¬ token.text <:+: [] := fun h =>
  (isTag_text token).ne_nil (List.eq_nil_of_infix_nil h)

/-- Tokens and texts that are written are extracted again. -/
theorem otslExtractTokensAndText_joinAll {pairs : List (Otsl × List Char)}
    (hpairs : ∀ p ∈ pairs, (p.2 = [] ∨ strip p.2 ≠ []) ∧ ∀ token ∈ Otsl.all,
      ¬ token.text <:+: p.2) :
    otslExtractTokensAndText (joinAll Otsl.text [] pairs) =
      (pairs.map Prod.fst, pairs.flatMap partsOf) := by
  have hsplit : splitAll Otsl.text Otsl.all (joinAll Otsl.text [] pairs) = ([], pairs) :=
    splitAll_joinAll (fun token _ => isTag_text token) (by decide)
      (fun token _ => free_nil token) fun p hp => ⟨mem_all p.1, (hpairs p hp).2⟩
  rw [otslExtractTokensAndText, hsplit]
  refine Prod.ext rfl ?_
  simp only [List.filter_cons]
  rw [if_neg (by decide), List.filter_flatMap]
  refine List.flatMap_congr fun p hp => ?_
  have htoken : strip (OtslPart.token p.1).str ≠ [] := strip_text_ne_nil p.1
  rw [List.filter_cons, if_pos (decide_eq_true htoken), partsOf]
  congr 1
  rcases (hpairs p hp).1 with hnil | hstrip
  · rw [hnil]
    rfl
  · have hne : p.2 ≠ [] := by
      intro hnil
      rw [hnil] at hstrip
      exact hstrip rfl
    have htext : strip (OtslPart.text p.2).str ≠ [] := hstrip
    rw [textParts, if_neg hne, List.filter_cons, if_pos (decide_eq_true htext)]
    rfl

theorem splitRowTokens_flatMap {α : Type*} {rows : List α} {row : α → List Otsl}
    (hrows : ∀ a ∈ rows, row a ≠ [] ∧ .nl ∉ row a) :
    splitRowTokens (rows.flatMap fun a => row a ++ [.nl]) = rows.map row := by
  induction rows with
  | nil => rfl
  | cons a rows ih =>
      obtain ⟨hne, hnl⟩ := hrows a List.mem_cons_self
      have hrest := ih fun b hb => hrows b (List.mem_cons_of_mem a hb)
      have hfree : ∀ token ∈ row a, decide (token = .nl) = false := fun token htoken =>
        decide_eq_false (ne_of_mem_of_not_mem htoken hnl)
      rw [splitRowTokens] at hrest ⊢
      rw [List.flatMap_cons, List.append_assoc, List.singleton_append,
        List.splitOnP_append_cons_of_forall_mem hfree _ (by decide), List.filter_cons,
        if_pos (by simpa using hne), hrest, List.map_cons]

theorem maxCols_eq {rows : List (List Otsl)} {cols : ℕ} (hlength : ∀ row ∈ rows, row.length = cols)
    (hne : rows ≠ []) : maxCols rows = cols := by
  rw [maxCols]
  induction rows with
  | nil => exact absurd rfl hne
  | cons row rows ih =>
      have hrow := hlength row List.mem_cons_self
      rw [List.map_cons, List.foldr_cons, hrow]
      by_cases hnil : rows = []
      · rw [hnil]
        exact Nat.max_zero cols
      · rw [ih (fun row' h => hlength row' (List.mem_cons_of_mem row h)) hnil, Nat.max_self]

theorem padRows_eq {rows : List (List Otsl)} {cols : ℕ}
    (hlength : ∀ row ∈ rows, row.length = cols) : padRows rows = rows := by
  rw [padRows]
  conv_rhs => rw [← List.map_id rows]
  refine List.map_congr_left fun row hrow => ?_
  rw [List.rightpad, maxCols_eq hlength (List.ne_nil_of_mem hrow), hlength row hrow, Nat.sub_self]
  exact List.append_nil row

/-- The parts of a row are found in the texts one after the other. -/
theorem foldl_addToken {pairs : List (Otsl × List Char)} {newTexts rest : List OtslPart}
    {token : Otsl} (hrest : rest.head? = some (.token token)) :
    (pairs.map Prod.fst).foldl addToken (newTexts, pairs.flatMap partsOf ++ rest) =
      (newTexts ++ pairs.flatMap partsOf, rest) := by
  induction pairs generalizing newTexts with
  | nil => simp
  | cons p pairs ih =>
      have hnext : ∀ x texts, pairs.flatMap partsOf ++ rest ≠ .text x :: texts := by
        intro x texts heq
        cases pairs with
        | nil => simp [show rest = _ from heq] at hrest
        | cons q pairs => simp [partsOf] at heq
      have hstep : addToken (newTexts, partsOf p ++ (pairs.flatMap partsOf ++ rest)) p.1 =
          (newTexts ++ partsOf p, pairs.flatMap partsOf ++ rest) := by
        rw [partsOf, textParts]
        split
        · simp only [addToken, List.cons_append, List.nil_append, if_true]
        · simp [addToken]
      rw [List.map_cons, List.foldl_cons, List.flatMap_cons, List.append_assoc, hstep, ih,
        List.append_assoc]

theorem padTexts_flatMap {α : Type*} {rows : List α} {row : α → List (Otsl × List Char)} :
    padTexts (rows.map fun a => (row a).map Prod.fst)
        (rows.flatMap fun a => (row a ++ [(Otsl.nl, [])]).flatMap partsOf) =
      rows.flatMap fun a => (row a ++ [(Otsl.nl, [])]).flatMap partsOf := by
  have hloop : ∀ newTexts, (rows.map fun a => (row a).map Prod.fst).foldl addRow
      (newTexts, rows.flatMap fun a => (row a ++ [(Otsl.nl, [])]).flatMap partsOf) =
        (newTexts ++ rows.flatMap fun a => (row a ++ [(Otsl.nl, [])]).flatMap partsOf, []) := by
    induction rows with
    | nil => simp
    | cons a rows ih =>
        intro newTexts
        have hrow : (row a ++ [(Otsl.nl, [])]).flatMap partsOf =
            (row a).flatMap partsOf ++ [.token .nl] := by
          rw [List.flatMap_append]
          rfl
        rw [List.map_cons, List.foldl_cons, List.flatMap_cons, hrow, addRow, List.append_assoc,
          @foldl_addToken _ _ _ .nl rfl]
        simp only [List.singleton_append]
        rw [ih]
        simp [List.append_assoc]
  rw [padTexts, hloop, List.nil_append]

section

variable {rows cols : ℕ} {t : Tiling rows cols (Option CellText)} {i j : ℕ}

/-- The rows of tokens of a tiling. -/
def tokenRows (t : Tiling rows cols (Option CellText)) : List (List Otsl) :=
  (List.range rows).map fun i => (List.range cols).map (tokenAt t i)

theorem tokenAt_ne_nl : tokenAt t i j ≠ .nl := by
  rw [tokenAt]
  split_ifs <;> decide

/-- A cell goes on to the right in its first row. -/
theorem tokenAt_right (hi : i < rows) (hj : j < cols) (hcorner : t.Corner i j) {m : ℕ}
    (hm : j < m) (hlt : m < j + (t.cellAt i j).width) : tokenAt t i m = .lcel := by
  obtain ⟨htop, hleft⟩ := hcorner
  have hsame := t.same i hi j hj i m ⟨(t.covers i hi j hj).1, by omega, by omega⟩
  have hnot : ¬ t.Corner i m := fun h => by
    have hleft' := h.2
    rw [hsame] at hleft'
    omega
  rw [tokenAt, if_neg hnot, hsame, if_pos htop]

/-- A cell goes on below in its first column. -/
theorem tokenAt_below (hi : i < rows) (hj : j < cols) (hcorner : t.Corner i j) {m : ℕ}
    (hm : i < m) (hlt : m < i + (t.cellAt i j).height) : tokenAt t m j = .ucel := by
  obtain ⟨htop, hleft⟩ := hcorner
  have hsame := t.same i hi j hj m j ⟨⟨by omega, by omega⟩, (t.covers i hi j hj).2⟩
  have hnot : ¬ (t.cellAt m j).top = m := by
    rw [hsame]
    omega
  rw [tokenAt, if_neg fun h => hnot h.1, if_neg hnot, hsame, if_pos hleft]

theorem countRight_eq (hi : i < rows) (hj : j < cols) (hcorner : t.Corner i j) :
    countRight (tokenRows t) (j + 1) i [.lcel, .xcel] + 1 = (t.cellAt i j).width := by
  obtain ⟨htop, hleft⟩ := hcorner
  obtain ⟨hrows, -, hright⟩ := t.covers i hi j hj
  have hinside := (t.inside i hi j hj).2
  have hrow : ((tokenRows t).getD i []).drop (j + 1) =
      (List.range' (j + 1) (cols - (j + 1))).map (tokenAt t i) := by
    rw [tokenRows, List.getD_eq_getElem?_getD, List.getElem?_map, List.getElem?_range hi,
      Option.map_some, Option.getD_some, ← List.map_drop, List.range_eq_range', List.drop_range']
    simp
  have hrun : ((List.range' (j + 1) (cols - (j + 1))).takeWhile
      fun m => tokenAt t i m ∈ [Otsl.lcel, .xcel]).length = (t.cellAt i j).width - 1 := by
    refine length_takeWhile_range' (fun m hm hlt => ?_) (by omega) fun hlt => ?_
    · rw [decide_eq_true_eq, tokenAt_right hi hj ⟨htop, hleft⟩ (by omega) (by omega)]
      exact List.mem_cons_self
    · -- behind the cell another one has its left side
      have hnext : j + 1 + ((t.cellAt i j).width - 1) =
          (t.cellAt i j).left + (t.cellAt i j).width := by omega
      have hleft' := t.left_of_right hi hj (by omega)
      rw [hnext, decide_eq_true_eq, tokenAt]
      split_ifs with hcorner' hsome htop'
      · decide
      · decide
      · exact absurd ⟨htop', hleft'⟩ hcorner'
      · decide
  rw [countRight, hrow, List.takeWhile_map, List.length_map]
  simp only [Function.comp_def]
  rw [hrun]
  omega

theorem countDown_eq (hi : i < rows) (hj : j < cols) (hcorner : t.Corner i j) :
    countDown (tokenRows t) j (i + 1) [.ucel, .xcel] + 1 = (t.cellAt i j).height := by
  obtain ⟨htop, hleft⟩ := hcorner
  obtain ⟨⟨-, hbottom⟩, hcols⟩ := t.covers i hi j hj
  have hinside := (t.inside i hi j hj).1
  have hcolumn : ((tokenRows t).drop (i + 1)).map (·.getD j .nl) =
      (List.range' (i + 1) (rows - (i + 1))).map (tokenAt t · j) := by
    rw [tokenRows, ← List.map_drop, @List.range_eq_range' rows, List.drop_range', List.map_map]
    simp only [Nat.mul_one, Nat.zero_add]
    refine List.map_congr_left fun m _ => ?_
    rw [Function.comp_apply, List.getD_eq_getElem?_getD, List.getElem?_map,
      List.getElem?_range hj]
    rfl
  have hrun : ((List.range' (i + 1) (rows - (i + 1))).takeWhile
      fun m => tokenAt t m j ∈ [Otsl.ucel, .xcel]).length = (t.cellAt i j).height - 1 := by
    refine length_takeWhile_range' (fun m hm hlt => ?_) (by omega) fun hlt => ?_
    · rw [decide_eq_true_eq, tokenAt_below hi hj ⟨htop, hleft⟩ (by omega) (by omega)]
      exact List.mem_cons_self
    · -- below the cell another one has its top
      have hnext : i + 1 + ((t.cellAt i j).height - 1) =
          (t.cellAt i j).top + (t.cellAt i j).height := by omega
      have htop' := t.top_of_bottom hi hj (by omega)
      rw [hnext, decide_eq_true_eq, tokenAt, if_pos htop']
      split_ifs <;> decide
  rw [countDown, hcolumn, List.takeWhile_map, List.length_map]
  simp only [Function.comp_def]
  rw [hrun]
  omega

/-- The table cell of a cell of the tiling. -/
def tableCell (c : Cell (Option CellText)) : TableCell where
  rowSpan := c.height
  colSpan := c.width
  startRowOffsetIdx := c.top
  endRowOffsetIdx := c.top + c.height
  startColOffsetIdx := c.left
  endColOffsetIdx := c.left + c.width
  text := (c.content.map fun text => strip text.val).getD []

/-- The token behind a place in its row. -/
def nextToken (t : Tiling rows cols (Option CellText)) (i j : ℕ) : Otsl :=
  if j + 1 < cols then tokenAt t i (j + 1) else .nl

theorem colSpan_eq (hi : i < rows) (hj : j < cols) (hcorner : t.Corner i j) :
    (1 + if some (OtslPart.token (nextToken t i j)) = some (.token .lcel) ∨
        some (OtslPart.token (nextToken t i j)) = some (.token .xcel) then
      countRight (tokenRows t) (j + 1) i [.lcel, .xcel] else 0) = (t.cellAt i j).width := by
  have hcount := countRight_eq hi hj hcorner
  have hinside := (t.inside i hi j hj).2
  split
  · omega
  · rename_i hnext
    by_contra hne
    refine hnext (.inl ?_)
    have hleft := hcorner.2
    rw [nextToken, if_pos (by omega), tokenAt_right hi hj hcorner (by omega) (by omega)]

theorem rowSpan_eq (hi : i < rows) (hj : j < cols) (hcorner : t.Corner i j) :
    (1 + if ((tokenRows t)[i + 1]?).bind (·[j]?) = some .ucel ∨
        ((tokenRows t)[i + 1]?).bind (·[j]?) = some .xcel then
      countDown (tokenRows t) j (i + 1) [.ucel, .xcel] else 0) = (t.cellAt i j).height := by
  have hcount := countDown_eq hi hj hcorner
  have hinside := (t.inside i hi j hj).1
  split
  · omega
  · rename_i hnext
    by_contra hne
    refine hnext (.inl ?_)
    have htop := hcorner.1
    rw [tokenRows, List.getElem?_map, List.getElem?_range (by omega), Option.map_some,
      Option.bind_some, List.getElem?_map, List.getElem?_range hj, Option.map_some,
      tokenAt_below hi hj hcorner (by omega) (by omega)]

theorem otslCell_eq (hi : i < rows) (hj : j < cols) (hcorner : t.Corner i j)
    {rest : List OtslPart} (hrest : rest.head? = some (.token (nextToken t i j))) :
    otslCell (tokenRows t) i j (tokenAt t i j) (textParts (textAt t i j) ++ rest) =
      tableCell (t.cellAt i j) := by
  have hcell : (if tokenAt t i j = .ecel then ([], textParts (textAt t i j) ++ rest)
      else (((textParts (textAt t i j) ++ rest).head?.map OtslPart.str).getD [],
        (textParts (textAt t i j) ++ rest).tail)) = (textAt t i j, rest) := by
    rw [tokenAt, textAt, if_pos hcorner, if_pos hcorner]
    cases hcontent : (t.cellAt i j).content with
    | none => simp [textParts]
    | some text =>
        have hne : text.val ≠ [] := fun h => text.property.1 (by rw [h]; rfl)
        simp [textParts, hne, OtslPart.str]
  have hstrip : strip (textAt t i j) =
      ((t.cellAt i j).content.map fun text => strip text.val).getD [] := by
    rw [textAt, if_pos hcorner]
    cases (t.cellAt i j).content with
    | none => rfl
    | some text => rfl
  obtain ⟨htop, hleft⟩ := hcorner
  rw [otslCell, hcell]
  simp only [hrest]
  rw [colSpan_eq hi hj ⟨htop, hleft⟩, rowSpan_eq hi hj ⟨htop, hleft⟩, hstrip, tableCell, htop,
    hleft]

theorem otslCells_token (tokens : List (List Otsl)) (rIdx cIdx : ℕ) {token : Otsl}
    (htoken : token ≠ .nl) (rest : List OtslPart) :
    otslCells tokens rIdx cIdx (.token token :: rest) =
      (if token = .fcel ∨ token = .ecel then [otslCell tokens rIdx cIdx token rest] else []) ++
        otslCells tokens rIdx (cIdx + 1) rest := by
  cases token with
  | nl => exact absurd rfl htoken
  | fcel | ecel | lcel | ucel | xcel => simp [otslCells]

theorem otslCells_textParts (tokens : List (List Otsl)) (rIdx cIdx : ℕ) (s : List Char)
    (rest : List OtslPart) :
    otslCells tokens rIdx cIdx (textParts s ++ rest) = otslCells tokens rIdx cIdx rest := by
  rw [textParts]
  split
  · rfl
  · rw [List.singleton_append, otslCells]

theorem tokenAt_eq_fcel_or_ecel_iff : tokenAt t i j = .fcel ∨ tokenAt t i j = .ecel ↔
    t.Corner i j := by
  rw [tokenAt]
  split_ifs with hcorner
  · exact iff_of_true (.inl rfl) hcorner
  · exact iff_of_true (.inr rfl) hcorner
  · exact iff_of_false (by decide) hcorner
  · exact iff_of_false (by decide) hcorner
  · exact iff_of_false (by decide) hcorner

/-- The cells that begin in a row from a column on. -/
theorem otslCells_row (hi : i < rows) {c n : ℕ} (hn : c + n = cols) (rest : List OtslPart) :
    otslCells (tokenRows t) i c
        (((List.range' c n).map fun j => (tokenAt t i j, textAt t i j)).flatMap partsOf ++
          .token .nl :: rest) =
      ((List.range' c n).filter (t.Corner i ·)).map (fun j => tableCell (t.cellAt i j)) ++
        otslCells (tokenRows t) (i + 1) 0 rest := by
  induction n generalizing c with
  | zero => simp [otslCells]
  | succ n ih =>
      have hnext : (((List.range' (c + 1) n).map fun j => (tokenAt t i j, textAt t i j)).flatMap
          partsOf ++ .token .nl :: rest).head? = some (.token (nextToken t i c)) := by
        cases n with
        | zero => rw [nextToken, if_neg (by omega)]; rfl
        | succ n => rw [nextToken, if_pos (by omega)]; rfl
      rw [List.range'_succ, List.map_cons, List.flatMap_cons, partsOf, List.cons_append,
        List.cons_append, List.append_assoc, otslCells_token _ _ _ tokenAt_ne_nl,
        otslCells_textParts, ih (by omega), List.filter_cons]
      simp only [tokenAt_eq_fcel_or_ecel_iff]
      by_cases hcorner : t.Corner i c
      · rw [if_pos hcorner, if_pos (decide_eq_true hcorner),
          otslCell_eq hi (by omega) hcorner hnext]
        rfl
      · rw [if_neg hcorner, if_neg (by simpa using hcorner), List.nil_append]

theorem otslCells_rows {n : ℕ} (hn : i + n = rows) :
    otslCells (tokenRows t) i 0
        ((List.range' i n).flatMap fun i => (otslRow t i).flatMap partsOf) =
      (List.range' i n).flatMap fun i => (t.row i).map tableCell := by
  induction n generalizing i with
  | zero => rfl
  | succ n ih =>
      have hrow : (otslRow t i).flatMap partsOf =
          ((List.range' 0 cols).map fun j => (tokenAt t i j, textAt t i j)).flatMap partsOf ++
            [.token .nl] := by
        rw [otslRow, List.flatMap_append, List.range_eq_range']
        rfl
      rw [List.range'_succ, List.flatMap_cons, List.flatMap_cons, hrow, List.append_assoc,
        List.singleton_append, otslCells_row (by omega) (by omega), ih (by omega),
        Tiling.row, Tiling.corners, List.range_eq_range', List.map_map]
      rfl

/-- The cells of the tiling are found with their places and spans. -/
theorem otslParseTexts_otslRow (hcols : 0 < cols) :
    otslParseTexts ((List.range rows).flatMap fun i => (otslRow t i).flatMap partsOf)
        (((List.range rows).flatMap (otslRow t)).map Prod.fst) =
      (t.cells.map tableCell, tokenRows t) := by
  have htokens : ((List.range rows).flatMap (otslRow t)).map Prod.fst =
      (List.range rows).flatMap fun i => (List.range cols).map (tokenAt t i) ++ [.nl] := by
    rw [List.map_flatMap]
    refine List.flatMap_congr fun i _ => ?_
    simp [otslRow, Function.comp_def]
  have hsplit : splitRowTokens (((List.range rows).flatMap (otslRow t)).map Prod.fst) =
      tokenRows t := by
    rw [htokens]
    refine splitRowTokens_flatMap fun i _ => ⟨?_, fun hmem => ?_⟩
    · rw [ne_eq, List.map_eq_nil_iff, List.range_eq_nil]
      omega
    · obtain ⟨j, -, hj⟩ := List.mem_map.mp hmem
      exact tokenAt_ne_nl hj
  have hpad : padRows (tokenRows t) = tokenRows t := by
    refine @padRows_eq _ cols fun row hrow => ?_
    obtain ⟨i, -, rfl⟩ := List.mem_map.mp hrow
    rw [List.length_map, List.length_range]
  have htexts : padTexts (tokenRows t)
      ((List.range rows).flatMap fun i => (otslRow t i).flatMap partsOf) =
        (List.range rows).flatMap fun i => (otslRow t i).flatMap partsOf := by
    have hrows : tokenRows t = (List.range rows).map fun i =>
        ((List.range cols).map fun j => (tokenAt t i j, textAt t i j)).map Prod.fst := by
      simp [tokenRows, Function.comp_def]
    rw [hrows]
    exact padTexts_flatMap
  have hcells : otslCells (tokenRows t) 0 0
      ((List.range rows).flatMap fun i => (otslRow t i).flatMap partsOf) =
        t.cells.map tableCell := by
    rw [List.range_eq_range', otslCells_rows (Nat.zero_add rows), Tiling.cells, List.map_flatMap,
      List.range_eq_range']
  rw [otslParseTexts, hsplit, hpad, htexts, ite_self, hcells]

/-! ## The table -/

theorem strip_strip (s : List Char) : strip (strip s) = strip s := by
  have hfront : (strip s).dropWhile Document.isSpace = strip s := by
    cases hstrip : strip s with
    | nil => rfl
    | cons a r =>
        have hprefix : strip s <+: s.dropWhile Document.isSpace := List.rdropWhile_prefix _ _
        obtain ⟨u, hu⟩ := hprefix
        rw [hstrip, List.cons_append] at hu
        have hfirst : ¬ Document.isSpace a := by
          have hne : s.dropWhile Document.isSpace ≠ [] := hu ▸ List.cons_ne_nil a _
          have hnot := List.head_dropWhile_not Document.isSpace hne
          simpa [← hu] using hnot
        exact List.dropWhile_cons_of_neg hfirst
  rw [strip, hfront, strip, List.rdropWhile_idempotent]

theorem lt_notMem_htmlEscape (s : List Char) : '<' ∉ htmlEscape s := by
  rw [htmlEscape, List.mem_flatMap]
  rintro ⟨c, -, hmem⟩
  split_ifs at hmem with hamp hlt hgt hquot hapos
  · exact absurd hmem (by decide)
  · exact absurd hmem (by decide)
  · exact absurd hmem (by decide)
  · exact absurd hmem (by decide)
  · exact absurd hmem (by decide)
  · exact hlt (List.mem_singleton.mp hmem).symm

/-- A place of the grid holds the only cell that fills it. -/
theorem foldl_grid {numRows numCols : ℕ} {tableCells : List TableCell} {x : TableCell}
    (hall : ∀ cell ∈ tableCells, cell.Fills numRows numCols i j → cell = x)
    {grid : ℕ → ℕ → TableCell}
    (hsome : grid i j = x ∨ ∃ cell ∈ tableCells, cell.Fills numRows numCols i j) :
    tableCells.foldl
      (fun grid cell i j => if cell.Fills numRows numCols i j then cell else grid i j) grid i j =
        x := by
  induction tableCells generalizing grid with
  | nil => exact hsome.resolve_right (by simp)
  | cons cell tableCells ih =>
      refine ih (fun cell' h => hall cell' (List.mem_cons_of_mem cell h)) ?_
      by_cases hfills : cell.Fills numRows numCols i j
      · exact .inl ((if_pos hfills).trans (hall cell List.mem_cons_self hfills))
      · rcases hsome with hgrid | ⟨cell', hmem, hfills'⟩
        · exact .inl ((if_neg hfills).trans hgrid)
        · rcases List.mem_cons.mp hmem with rfl | hmem
          · exact absurd hfills' hfills
          · exact .inr ⟨cell', hmem, hfills'⟩

theorem grid_eq (hi : i < rows) (hj : j < cols) :
    TableData.grid { tableCells := t.cells.map tableCell, numRows := rows, numCols := cols } i j =
      tableCell (t.cellAt i j) := by
  have hfills : ∀ c ∈ t.cells, (tableCell c).Fills rows cols i j ↔ c.Covers i j := by
    intro c hc
    obtain ⟨i', hi', j', hj', rfl⟩ := Tiling.mem_cells.mp hc
    have hinside := t.inside i' hi' j' hj'
    simp only [TableCell.Fills, tableCell, Cell.Covers]
    omega
  have hmem : t.cellAt i j ∈ t.cells := Tiling.mem_cells.mpr ⟨i, hi, j, hj, rfl⟩
  refine foldl_grid (fun cell hcell hcovers => ?_) (.inr ⟨_, List.mem_map_of_mem hmem, ?_⟩)
  · obtain ⟨c, hc, rfl⟩ := List.mem_map.mp hcell
    have hcovers' := (hfills c hc).mp hcovers
    obtain ⟨i', hi', j', hj', rfl⟩ := Tiling.mem_cells.mp hc
    rw [t.same i' hi' j' hj' i j hcovers']
  · exact (hfills _ hmem).mpr (t.covers i hi j hj)

/-- What is shown in a cell: its text without white space around it, escaped. -/
def shown (content : Option CellText) : List Char :=
  htmlEscape ((content.map fun text => strip text.val).getD [])

theorem cellHtml_tableCell (i j : ℕ) :
    cellHtml (tableCell (t.cellAt i j)) i j =
      if t.Corner i j then Html.writeTd ((t.cellAt i j).map shown).td else [] := by
  have hstrip : strip (tableCell (t.cellAt i j)).text = (tableCell (t.cellAt i j)).text := by
    rw [tableCell]
    cases (t.cellAt i j).content with
    | none => rfl
    | some text => exact strip_strip text.val
  rw [cellHtml, hstrip]
  by_cases hcorner : t.Corner i j
  · have htop : (tableCell (t.cellAt i j)).startRowOffsetIdx = i := hcorner.1
    have hleft : (tableCell (t.cellAt i j)).startColOffsetIdx = j := hcorner.2
    have hclose : ∀ s : List Char, s ++ "</".toList ++ "td".toList ++ ">".toList =
        s ++ "</td>".toList := fun s => by rw [List.append_assoc, List.append_assoc]; rfl
    rw [if_pos hcorner, if_neg (not_not.mpr htop), if_neg (not_not.mpr hleft)]
    exact hclose _
  · rw [if_neg hcorner]
    split
    · rfl
    · rename_i htop
      exact if_pos fun hleft => hcorner ⟨not_not.mp htop, hleft⟩

theorem flatMap_ite {α β : Type*} {p : α → Prop} [DecidablePred p] {f : α → List β}
    (l : List α) : (l.flatMap fun a => if p a then f a else []) = (l.filter p).flatMap f := by
  induction l with
  | nil => rfl
  | cons a l ih =>
      by_cases hp : p a
      · rw [List.flatMap_cons, ih, if_pos hp, List.filter_cons, if_pos (decide_eq_true hp),
          List.flatMap_cons]
      · rw [List.flatMap_cons, ih, if_neg hp, List.filter_cons, if_neg (by simpa using hp),
          List.nil_append]

theorem exportToHtml_eq (hrows : 0 < rows) (hcols : 0 < cols) :
    exportToHtml { tableCells := t.cells.map tableCell, numRows := rows, numCols := cols } =
      Html.writeTable (t.map shown).tds := by
  have hne : t.cells.map tableCell ≠ [] := by
    rw [ne_eq, List.map_eq_nil_iff]
    exact List.ne_nil_of_mem (Tiling.mem_cells.mpr ⟨0, hrows, 0, hcols, rfl⟩)
  have hrow : ∀ i ∈ List.range rows, "<tr>".toList ++ ((List.range cols).flatMap fun j =>
      cellHtml (TableData.grid
        { tableCells := t.cells.map tableCell, numRows := rows, numCols := cols } i j) i j) ++
          "</tr>".toList = Html.writeRow (((t.map shown).row i).map Cell.td) := by
    intro i hi
    have hcells : (List.range cols).flatMap (fun j => cellHtml (TableData.grid
        { tableCells := t.cells.map tableCell, numRows := rows, numCols := cols } i j) i j) =
          (((t.map shown).row i).map Cell.td).flatMap Html.writeTd := by
      refine (List.flatMap_congr fun j hj => ?_).trans ((flatMap_ite (p := fun j => t.Corner i j)
        (f := fun j => Html.writeTd ((t.cellAt i j).map shown).td) _).trans ?_)
      · rw [grid_eq (List.mem_range.mp hi) (List.mem_range.mp hj), cellHtml_tableCell]
      · rw [Tiling.row, List.map_map, List.flatMap_map]
        rfl
    rw [hcells]
    rfl
  rw [exportToHtml, if_neg hne]
  unfold Html.writeTable
  rw [List.flatMap_congr hrow, Tiling.tds, List.flatMap_map]

theorem readable_tds : ∀ tds ∈ (t.map shown).tds, ∀ td ∈ tds, Html.Readable td := by
  intro tds htds td htd
  obtain ⟨i, hi, rfl⟩ := List.mem_map.mp htds
  obtain ⟨c, hc, rfl⟩ := List.mem_map.mp htd
  obtain ⟨j, hj, rfl⟩ := List.mem_map.mp hc
  have hcovers := t.covers i (List.mem_range.mp hi) j (Tiling.mem_corners.mp hj).1
  have hheight : 0 < (t.cellAt i j).height := by
    have htop := hcovers.1
    omega
  have hwidth : 0 < (t.cellAt i j).width := by
    have hleft := hcovers.2
    omega
  exact ⟨hheight, hwidth, lt_notMem_htmlEscape _⟩

/-- A tiling that is written in OTSL is read from the HTML table again: as many rows, and the
same rectangles with the same texts. -/
theorem convertOtslToHtml_faithful (t : Tiling rows cols (Option CellText)) (hrows : 0 < rows)
    (hcols : 0 < cols) :
    ∃ table, Html.readTable (convertOtslToHtml (writeOtsl t)) = some table ∧
      table.length = rows ∧
      formTable table = { width := cols, height := rows, cells := (t.map shown).cells } := by
  have hpairs : ∀ p ∈ (List.range rows).flatMap (otslRow t),
      (p.2 = [] ∨ strip p.2 ≠ []) ∧ ∀ token ∈ Otsl.all, ¬ token.text <:+: p.2 := by
    intro p hp
    obtain ⟨i, -, hp⟩ := List.mem_flatMap.mp hp
    rcases List.mem_append.mp hp with hp | hp
    · obtain ⟨j, -, rfl⟩ := List.mem_map.mp hp
      simp only [textAt]
      split
      · cases (t.cellAt i j).content with
        | none => exact ⟨.inl rfl, fun token _ => free_nil token⟩
        | some text => exact ⟨.inr text.property.1, text.property.2⟩
      · exact ⟨.inl rfl, fun token _ => free_nil token⟩
    · rw [List.mem_singleton.mp hp]
      exact ⟨.inl rfl, fun token _ => free_nil token⟩
  have hlength : ∀ row ∈ tokenRows t, row.length = cols := by
    intro row hrow
    obtain ⟨i, -, rfl⟩ := List.mem_map.mp hrow
    rw [List.length_map, List.length_range]
  have hne : tokenRows t ≠ [] := by
    rw [tokenRows, ne_eq, List.map_eq_nil_iff, List.range_eq_nil]
    omega
  have hconvert : convertOtslToHtml (writeOtsl t) = Html.writeTable (t.map shown).tds := by
    rw [convertOtslToHtml, writeOtsl, otslExtractTokensAndText_joinAll hpairs]
    simp only [List.flatMap_assoc, otslParseTexts_otslRow hcols]
    rw [maxCols_eq hlength hne, tokenRows, List.length_map, List.length_range]
    exact exportToHtml_eq hrows hcols
  refine ⟨(t.map shown).tds, ?_, ?_, (t.map shown).formTable_tds hrows hcols⟩
  · rw [hconvert]
    exact Html.readTable_writeTable readable_tds
  · rw [Tiling.tds, List.length_map, List.length_range]

end

def large : CellText := ⟨"A".toList, by decide⟩

def signs : CellText := ⟨" b<c ".toList, by decide⟩

/-- A large cell, and at its right an empty one and one with a sign of HTML in it. -/
def spannedTiling : Tiling 2 3 (Option CellText) where
  cellAt i j :=
    if j < 2 then ⟨0, 0, 2, 2, some large⟩
    else ⟨i, 2, 1, 1, if i = 0 then none else some signs⟩
  covers := by decide
  inside := by decide
  same := by
    intro i hi j hj i' j' hcovers
    by_cases hleft : j < 2
    · rw [if_pos hleft] at hcovers
      obtain ⟨-, -, hright⟩ := hcovers
      exact (if_pos hright).trans (if_pos hleft).symm
    · rw [if_neg hleft] at hcovers
      obtain ⟨⟨htop, hbottom⟩, hright, -⟩ := hcovers
      obtain rfl : i' = i := Nat.le_antisymm (Nat.le_of_lt_succ hbottom) htop
      rw [if_neg hleft, if_neg (Nat.not_lt.mpr hright)]

theorem convertOtslToHtml_spannedTiling :
    ∃ table, Html.readTable (convertOtslToHtml (writeOtsl spannedTiling)) = some table ∧
      table.length = 2 ∧
      formTable table = { width := 3, height := 2, cells := (spannedTiling.map shown).cells } :=
  convertOtslToHtml_faithful spannedTiling (by decide) (by decide)

end RagflowMineru.MinerU
