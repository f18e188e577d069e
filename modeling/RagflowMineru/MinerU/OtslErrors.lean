import Mathlib.Data.List.GetD
import RagflowMineru.MinerU.Otsl

/-!
# Which OTSL texts become tables

The parts of a text are read with indices: the text of a filled cell is the part
behind its token, whatever that is, and the spans are counted from there.  When the
texts have come out of step with the tokens, that part is the next token, and the
place where a span is counted may not exist.
-/

namespace RagflowMineru.MinerU

open Library

/-! ## Reading with errors -/

/-- The text of Python's `IndexError`. -/
def indexError : String := "list index out of range"

/-- `count_right` in the rest of a row. -/
def runRight (whichTokens : List Otsl) : List Otsl → Except String ℕ
  | [] => .error indexError
  | token :: rest =>
      if token ∈ whichTokens then
        if rest = [] then .ok 1 else (runRight whichTokens rest).map (· + 1)
      else .ok 0

def tryCountRight (tokens : List (List Otsl)) (cIdx rIdx : ℕ) (whichTokens : List Otsl) :
    Except String ℕ :=
  match tokens[rIdx]? with
  | none => .error indexError
  | some row => runRight whichTokens (row.drop cIdx)

/-- `count_down` in the rest of the rows. -/
def runDown (cIdx : ℕ) (whichTokens : List Otsl) : List (List Otsl) → Except String ℕ
  | [] => .error indexError
  | row :: rest =>
      match row[cIdx]? with
      | none => .error indexError
      | some token =>
          if token ∈ whichTokens then
            if rest = [] then .ok 1 else (runDown cIdx whichTokens rest).map (· + 1)
          else .ok 0

def tryCountDown (tokens : List (List Otsl)) (cIdx rIdx : ℕ) (whichTokens : List Otsl) :
    Except String ℕ :=
  runDown cIdx whichTokens (tokens.drop rIdx)

/-- `cell_text`, and the texts behind it. -/
def tryCellText (token : Otsl) (rest : List OtslPart) :
    Except String (List Char × List OtslPart) :=
  if token = .ecel then .ok ([], rest)
  else
    match rest with
    | [] => .error indexError
    | part :: right => .ok (part.str, right)

/-- How many places of the row continue the cell to the right. -/
def tryMoreCols (rows : List (List Otsl)) (rIdx cIdx : ℕ) (right : List OtslPart) :
    Except String ℕ :=
  if right.head? = some (.token .lcel) ∨ right.head? = some (.token .xcel) then
    tryCountRight rows (cIdx + 1) rIdx [.lcel, .xcel]
  else .ok 0

def tryMoreRows (rows : List (List Otsl)) (rIdx cIdx : ℕ) : Except String ℕ :=
  let nextBottomCell := (rows[rIdx + 1]?).bind (·[cIdx]?)
  if nextBottomCell = some .ucel ∨ nextBottomCell = some .xcel then
    tryCountDown rows cIdx (rIdx + 1) [.ucel, .xcel]
  else .ok 0

/-- The cell of a token; `rest` are the texts behind it. -/
def tryOtslCell (rows : List (List Otsl)) (rIdx cIdx : ℕ) (token : Otsl) (rest : List OtslPart) :
    Except String TableCell := do
  let (cellText, right) ← tryCellText token rest
  let moreCols ← tryMoreCols rows rIdx cIdx right
  let moreRows ← tryMoreRows rows rIdx cIdx
  pure
    { rowSpan := 1 + moreRows
      colSpan := 1 + moreCols
      startRowOffsetIdx := rIdx
      endRowOffsetIdx := rIdx + (1 + moreRows)
      startColOffsetIdx := cIdx
      endColOffsetIdx := cIdx + (1 + moreCols)
      text := strip cellText }

/-- The loop over the texts, from a place of the grid on. -/
def tryOtslCells (rows : List (List Otsl)) : ℕ → ℕ → List OtslPart → Except String (List TableCell)
  | _, _, [] => .ok []
  | rIdx, cIdx, .text _ :: rest => tryOtslCells rows rIdx cIdx rest
  | rIdx, _, .token .nl :: rest => tryOtslCells rows (rIdx + 1) 0 rest
  | rIdx, cIdx, .token .fcel :: rest => do
      let cell ← tryOtslCell rows rIdx cIdx .fcel rest
      let cells ← tryOtslCells rows rIdx (cIdx + 1) rest
      pure (cell :: cells)
  | rIdx, cIdx, .token .ecel :: rest => do
      let cell ← tryOtslCell rows rIdx cIdx .ecel rest
      let cells ← tryOtslCells rows rIdx (cIdx + 1) rest
      pure (cell :: cells)
  | rIdx, cIdx, .token _ :: rest => tryOtslCells rows rIdx (cIdx + 1) rest

def tryOtslParseTexts (texts : List OtslPart) (tokens : List Otsl) :
    Except String (List TableCell × List (List Otsl)) := do
  let rows := padRows (splitRowTokens tokens)
  let texts := if rows = [] then texts else padTexts rows texts
  let cells ← tryOtslCells rows 0 0 texts
  pure (cells, rows)

/-- The table that `convert_otsl_to_html` builds. -/
def tryTableData (otslContent : List Char) : Except String TableData := do
  let (tokens, mixedTexts) := otslExtractTokensAndText otslContent
  let (tableCells, splitRowTokens) ← tryOtslParseTexts mixedTexts tokens
  pure { numRows := splitRowTokens.length, numCols := maxCols splitRowTokens, tableCells }

def tryConvertOtslToHtml (otslContent : List Char) : Except String (List Char) :=
  (tryTableData otslContent).map exportToHtml

/-! ## Without an error the result is the one without indices -/

theorem bind_eq_ok {α β : Type} {x : Except String α} {f : α → Except String β} {b : β}
    (h : (x >>= f) = .ok b) : ∃ a, x = .ok a ∧ f a = .ok b := by
  cases x with
  | error message => cases h
  | ok a => exact ⟨a, rfl, h⟩

theorem map_eq_ok {α β : Type} {x : Except String α} {f : α → β} {b : β}
    (h : x.map f = .ok b) : ∃ a, x = .ok a ∧ f a = b := by
  cases x with
  | error message => cases h
  | ok a => exact ⟨a, rfl, Except.ok.inj h⟩

section Counting

variable {whichTokens : List Otsl}

theorem runRight_of_ne_nil {row : List Otsl} (h : row ≠ []) :
    runRight whichTokens row = .ok (row.takeWhile (· ∈ whichTokens)).length := by
  induction row with
  | nil => exact absurd rfl h
  | cons token rest ih =>
    rw [runRight]
    by_cases hmem : token ∈ whichTokens
    · rw [if_pos hmem, List.takeWhile_cons_of_pos (by simpa using hmem)]
      by_cases hrest : rest = []
      · rw [if_pos hrest, hrest]
        rfl
      · rw [if_neg hrest, ih hrest]
        rfl
    · rw [if_neg hmem, List.takeWhile_cons_of_neg (by simpa using hmem)]
      rfl

theorem runRight_eq_ok {row : List Otsl} {n : ℕ} (h : runRight whichTokens row = .ok n) :
    n = (row.takeWhile (· ∈ whichTokens)).length := by
  by_cases hrow : row = []
  · rw [hrow] at h
    cases h
  · rw [runRight_of_ne_nil hrow] at h
    exact (Except.ok.inj h).symm

theorem runDown_of_lt {cIdx : ℕ} {rows : List (List Otsl)} (h : rows ≠ [])
    (hlt : ∀ row ∈ rows, cIdx < row.length) :
    runDown cIdx whichTokens rows =
      .ok ((rows.map (·.getD cIdx .nl)).takeWhile (· ∈ whichTokens)).length := by
  induction rows with
  | nil => exact absurd rfl h
  | cons row rest ih =>
    have hrow := hlt row List.mem_cons_self
    have hget : row.getD cIdx .nl = row[cIdx] := List.getD_eq_getElem _ _ hrow
    rw [runDown, List.getElem?_eq_getElem hrow, List.map_cons, hget]
    simp only
    by_cases hmem : row[cIdx] ∈ whichTokens
    · rw [if_pos hmem, List.takeWhile_cons_of_pos (by simpa using hmem)]
      by_cases hrest : rest = []
      · rw [if_pos hrest, hrest]
        rfl
      · rw [if_neg hrest, ih hrest fun row' h' => hlt row' (List.mem_cons_of_mem row h')]
        rfl
    · rw [if_neg hmem, List.takeWhile_cons_of_neg (by simpa using hmem)]
      rfl

theorem runDown_eq_ok {cIdx n : ℕ} {rows : List (List Otsl)}
    (h : runDown cIdx whichTokens rows = .ok n) :
    n = ((rows.map (·.getD cIdx .nl)).takeWhile (· ∈ whichTokens)).length := by
  induction rows generalizing n with
  | nil => cases h
  | cons row rest ih =>
    rw [runDown] at h
    cases hget : row[cIdx]? with
    | none =>
      rw [hget] at h
      cases h
    | some token =>
      have hgetD : row.getD cIdx .nl = token := by
        rw [List.getD_eq_getElem?_getD, hget, Option.getD_some]
      rw [hget] at h
      simp only at h
      rw [List.map_cons, hgetD]
      by_cases hmem : token ∈ whichTokens
      · rw [List.takeWhile_cons_of_pos (by simpa using hmem)]
        rw [if_pos hmem] at h
        by_cases hrest : rest = []
        · rw [if_pos hrest] at h
          rw [← Except.ok.inj h, hrest]
          rfl
        · rw [if_neg hrest] at h
          obtain ⟨m, hm, rfl⟩ := map_eq_ok h
          rw [List.length_cons, ← ih hm]
      · rw [List.takeWhile_cons_of_neg (by simpa using hmem)]
        rw [if_neg hmem] at h
        exact (Except.ok.inj h).symm

theorem countRight_of_ok {rows : List (List Otsl)} {cIdx rIdx n : ℕ}
    (h : tryCountRight rows cIdx rIdx whichTokens = .ok n) :
    n = countRight rows cIdx rIdx whichTokens := by
  rw [tryCountRight] at h
  rw [countRight, List.getD_eq_getElem?_getD]
  cases hrow : rows[rIdx]? with
  | none =>
    rw [hrow] at h
    cases h
  | some row =>
    rw [hrow] at h
    exact runRight_eq_ok h

theorem countDown_of_ok {rows : List (List Otsl)} {cIdx rIdx n : ℕ}
    (h : tryCountDown rows cIdx rIdx whichTokens = .ok n) :
    n = countDown rows cIdx rIdx whichTokens :=
  runDown_eq_ok h

end Counting

theorem ite_eq_ok {P : Prop} [Decidable P] {x : Except String ℕ} {n m : ℕ}
    (h : (if P then x else .ok 0) = .ok n) (hx : x = .ok n → n = m) :
    n = if P then m else 0 := by
  by_cases hP : P
  · rw [if_pos hP] at h ⊢
    exact hx h
  · rw [if_neg hP] at h ⊢
    exact (Except.ok.inj h).symm

/-- The text and what is behind it, as the cell without errors has them. -/
theorem tryCellText_eq_ok {token : Otsl} {rest : List OtslPart}
    {p : List Char × List OtslPart} (h : tryCellText token rest = .ok p) :
    p = if token = .ecel then ([], rest)
      else ((rest.head?.map OtslPart.str).getD [], rest.tail) := by
  by_cases htoken : token = .ecel
  · rw [htoken] at h ⊢
    exact (Except.ok.inj h).symm
  · rw [if_neg htoken]
    cases rest with
    | nil =>
      rw [tryCellText.eq_def, if_neg htoken] at h
      cases h
    | cons part right =>
      rw [tryCellText.eq_def, if_neg htoken] at h
      exact (Except.ok.inj h).symm

section Cells

variable {rows : List (List Otsl)} {rIdx cIdx : ℕ}

theorem tryOtslCell_eq_ok {token : Otsl} {rest : List OtslPart} {cell : TableCell}
    (h : tryOtslCell rows rIdx cIdx token rest = .ok cell) :
    cell = otslCell rows rIdx cIdx token rest := by
  rw [tryOtslCell] at h
  obtain ⟨⟨cellText, right⟩, htext, h⟩ := bind_eq_ok h
  obtain ⟨moreCols, hcols, h⟩ := bind_eq_ok h
  obtain ⟨moreRows, hrows, h⟩ := bind_eq_ok h
  have hcols := ite_eq_ok hcols countRight_of_ok
  have hrows := ite_eq_ok hrows countDown_of_ok
  rw [← Except.ok.inj h, otslCell, ← tryCellText_eq_ok htext, hcols, hrows]

theorem tryOtslCells_eq_ok {texts : List OtslPart} {cells : List TableCell}
    (h : tryOtslCells rows rIdx cIdx texts = .ok cells) :
    cells = otslCells rows rIdx cIdx texts := by
  induction texts generalizing rIdx cIdx cells with
  | nil => exact (Except.ok.inj h).symm
  | cons part rest ih =>
    have hcell : ∀ {token : Otsl} {r : Except String (List TableCell)},
        r = (do
          let cell ← tryOtslCell rows rIdx cIdx token rest
          let cells ← tryOtslCells rows rIdx (cIdx + 1) rest
          pure (cell :: cells)) → r = .ok cells →
        cells = otslCell rows rIdx cIdx token rest :: otslCells rows rIdx (cIdx + 1) rest := by
      intro token r hr hok
      rw [hr] at hok
      obtain ⟨cell, hcell, hok⟩ := bind_eq_ok hok
      obtain ⟨cells', hcells, hok⟩ := bind_eq_ok hok
      rw [← Except.ok.inj hok, tryOtslCell_eq_ok hcell, ih hcells]
    cases part with
    | text s => exact ih h
    | token token =>
      cases token with
      | nl => exact ih h
      | fcel => exact hcell rfl h
      | ecel => exact hcell rfl h
      | lcel => exact ih h
      | ucel => exact ih h
      | xcel => exact ih h

end Cells

theorem tryOtslParseTexts_eq_ok {texts : List OtslPart} {tokens : List Otsl}
    {r : List TableCell × List (List Otsl)} (h : tryOtslParseTexts texts tokens = .ok r) :
    r = otslParseTexts texts tokens := by
  rw [tryOtslParseTexts] at h
  obtain ⟨cells, hcells, h⟩ := bind_eq_ok h
  rw [← Except.ok.inj h, otslParseTexts, tryOtslCells_eq_ok hcells]

/-- What is returned without an error is the HTML of the table without indices. -/
theorem tryConvertOtslToHtml_eq_ok {s html : List Char} (h : tryConvertOtslToHtml s = .ok html) :
    html = convertOtslToHtml s := by
  obtain ⟨table, htable, rfl⟩ := map_eq_ok h
  rw [tryTableData] at htable
  rw [convertOtslToHtml]
  cases hextract : otslExtractTokensAndText s with
  | mk tokens mixedTexts =>
    rw [hextract] at htable
    obtain ⟨r, hr, htable⟩ := bind_eq_ok htable
    rw [← Except.ok.inj htable, tryOtslParseTexts_eq_ok hr]

/-! ## The rows, with the texts found for them -/

/-- The text found for a token, and the parts that are left. -/
def takeToken (token : Otsl) (texts : List OtslPart) : Option (List Char) × List OtslPart :=
  match texts with
  | .token token' :: rest =>
      if token' = token then
        match rest with
        | .text text :: rest => (some text, rest)
        | _ => (none, rest)
      else (none, texts)
  | _ => (none, texts)

def takeRow : List Otsl → List OtslPart → List (Otsl × Option (List Char)) × List OtslPart
  | [], texts => ([], texts)
  | token :: row, texts =>
      ((token, (takeToken token texts).1) :: (takeRow row (takeToken token texts).2).1,
        (takeRow row (takeToken token texts).2).2)

def skipNl : List OtslPart → List OtslPart
  | .token .nl :: rest => rest
  | texts => texts

def takeRows : List (List Otsl) → List OtslPart → List (List (Otsl × Option (List Char)))
  | [], _ => []
  | row :: rows, texts => (takeRow row texts).1 :: takeRows rows (skipNl (takeRow row texts).2)

def cellParts (p : Otsl × Option (List Char)) : List OtslPart :=
  .token p.1 :: (p.2.map OtslPart.text).toList

def rowParts (row : List (Otsl × Option (List Char))) : List OtslPart :=
  row.flatMap cellParts ++ [.token .nl]

section

variable {token : Otsl} {texts rest : List OtslPart}

theorem takeToken_other (h : texts.head? ≠ some (.token token)) :
    takeToken token texts = (none, texts) := by
  rcases texts with _ | ⟨token' | text, texts⟩
  · rfl
  · exact if_neg fun heq => h (by rw [heq]; rfl)
  · rfl

theorem takeToken_text (token : Otsl) (text : List Char) (rest : List OtslPart) :
    takeToken token (.token token :: .text text :: rest) = (some text, rest) :=
  if_pos rfl

theorem takeToken_self (h : ∀ text, rest.head? ≠ some (.text text)) :
    takeToken token (.token token :: rest) = (none, rest) := by
  rcases rest with _ | ⟨token' | text, rest⟩
  · exact if_pos rfl
  · exact if_pos rfl
  · exact absurd rfl (h text)

end

theorem addToken_eq (newTexts texts : List OtslPart) (token : Otsl) :
    addToken (newTexts, texts) token =
      (newTexts ++ cellParts (token, (takeToken token texts).1), (takeToken token texts).2) := by
  cases texts with
  | nil => rfl
  | cons part texts =>
    cases part with
    | text text => rfl
    | token token' =>
      simp only [addToken, takeToken]
      by_cases htoken : token' = token
      · rw [if_pos htoken, if_pos htoken]
        cases texts with
        | nil => rfl
        | cons part texts => cases part <;> rfl
      · rw [if_neg htoken, if_neg htoken]
        rfl

theorem foldl_addToken_eq (row : List Otsl) (newTexts texts : List OtslPart) :
    row.foldl addToken (newTexts, texts) =
      (newTexts ++ (takeRow row texts).1.flatMap cellParts, (takeRow row texts).2) := by
  induction row generalizing newTexts texts with
  | nil => simp [takeRow]
  | cons token row ih =>
    rw [List.foldl_cons, addToken_eq, ih, takeRow, List.flatMap_cons, List.append_assoc]

theorem addRow_eq (newTexts texts : List OtslPart) (row : List Otsl) :
    addRow (newTexts, texts) row =
      (newTexts ++ rowParts (takeRow row texts).1, skipNl (takeRow row texts).2) := by
  rw [addRow, foldl_addToken_eq, rowParts, ← List.append_assoc]
  generalize (takeRow row texts).2 = left
  rcases left with _ | ⟨token | text, left⟩
  · rfl
  · cases token <;> rfl
  · rfl

theorem padTexts_eq (rows : List (List Otsl)) (texts : List OtslPart) :
    padTexts rows texts = (takeRows rows texts).flatMap rowParts := by
  have hloop : ∀ newTexts texts, (rows.foldl addRow (newTexts, texts)).1 =
      newTexts ++ (takeRows rows texts).flatMap rowParts := by
    induction rows with
    | nil => simp [takeRows]
    | cons row rows ih =>
      intro newTexts texts
      rw [List.foldl_cons, addRow_eq, ih, takeRows, List.flatMap_cons, List.append_assoc]
  rw [padTexts, hloop, List.nil_append]

theorem takeRow_tokens (row : List Otsl) (texts : List OtslPart) :
    (takeRow row texts).1.map Prod.fst = row := by
  induction row generalizing texts with
  | nil => rfl
  | cons token row ih => rw [takeRow, List.map_cons, ih]

theorem takeRows_tokens (rows : List (List Otsl)) (texts : List OtslPart) :
    (takeRows rows texts).map (·.map Prod.fst) = rows := by
  induction rows generalizing texts with
  | nil => rfl
  | cons row rows ih => rw [takeRows, List.map_cons, takeRow_tokens, ih]

/-! ## Filled rows become cells -/

/-- A text is found for every filled cell. -/
def Filled (rows : List (List (Otsl × Option (List Char)))) : Prop :=
  ∀ row ∈ rows, (Otsl.fcel, none) ∉ row

def Free (s : List Char) : Prop := ∀ token : Otsl, ¬ token.text <:+: s

theorem strip_text (token : Otsl) : strip token.text = token.text := by
  cases token <;> decide

theorem free_strip {s : List Char} (hs : Free s) : Free (strip s) := by
  intro token h
  have hstrip : strip s <:+: s :=
    (List.rdropWhile_prefix _ _).isInfix.trans (List.dropWhile_suffix _).isInfix
  exact hs token (h.trans hstrip)

section Reading

variable {rows : List (List Otsl)} {rIdx cIdx : ℕ}

theorem tryMoreCols_ok {right : List OtslPart} {row : List Otsl} (hrow : rows[rIdx]? = some row)
    (hright : right.head? = some (.token .lcel) ∨ right.head? = some (.token .xcel) →
      cIdx + 1 < row.length) : ∃ n, tryMoreCols rows rIdx cIdx right = .ok n := by
  rw [tryMoreCols]
  split
  · rename_i hspan
    have hne : row.drop (cIdx + 1) ≠ [] := by
      rw [ne_eq, List.drop_eq_nil_iff]
      exact not_le.mpr (hright hspan)
    rw [tryCountRight, hrow]
    exact ⟨_, runRight_of_ne_nil hne⟩
  · exact ⟨0, rfl⟩

theorem tryMoreRows_ok (hrows : ∀ row ∈ rows, cIdx < row.length) :
    ∃ n, tryMoreRows rows rIdx cIdx = .ok n := by
  rw [tryMoreRows]
  split
  · rename_i hspan
    have hne : rows.drop (rIdx + 1) ≠ [] := by
      intro hnil
      rw [List.getElem?_eq_none (List.drop_eq_nil_iff.mp hnil)] at hspan
      simp at hspan
    exact ⟨_, runDown_of_lt hne fun row hrow => hrows row (List.drop_subset _ _ hrow)⟩
  · exact ⟨0, rfl⟩

theorem tryOtslCell_ok {token : Otsl} {rest right : List OtslPart} {cellText : List Char}
    {row : List Otsl} (htext : tryCellText token rest = .ok (cellText, right))
    (hrow : rows[rIdx]? = some row) (hrows : ∀ row ∈ rows, cIdx < row.length)
    (hright : right.head? = some (.token .lcel) ∨ right.head? = some (.token .xcel) →
      cIdx + 1 < row.length) :
    ∃ cell, tryOtslCell rows rIdx cIdx token rest = .ok cell ∧ cell.text = strip cellText := by
  obtain ⟨moreCols, hcols⟩ := tryMoreCols_ok hrow hright
  obtain ⟨moreRows, hmore⟩ := @tryMoreRows_ok rows rIdx cIdx hrows
  rw [tryOtslCell, htext]
  change ∃ cell, (tryMoreCols rows rIdx cIdx right >>= _) = _ ∧ _
  rw [hcols]
  change ∃ cell, (tryMoreRows rows rIdx cIdx >>= _) = _ ∧ _
  rw [hmore]
  exact ⟨_, rfl, rfl⟩

theorem tryOtslCells_token {token : Otsl} (hnl : token ≠ .nl) (rest : List OtslPart) :
    tryOtslCells rows rIdx cIdx (.token token :: rest) =
      if token = .fcel ∨ token = .ecel then
        tryOtslCell rows rIdx cIdx token rest >>= fun cell =>
          (tryOtslCells rows rIdx (cIdx + 1) rest).map (cell :: ·)
      else tryOtslCells rows rIdx (cIdx + 1) rest := by
  cases token with
  | nl => exact absurd rfl hnl
  | fcel => rfl
  | ecel => rfl
  | lcel => rfl
  | ucel => rfl
  | xcel => rfl

theorem tryOtslCells_found (text : Option (List Char)) (rest : List OtslPart) :
    tryOtslCells rows rIdx cIdx ((text.map OtslPart.text).toList ++ rest) =
      tryOtslCells rows rIdx cIdx rest := by
  cases text with
  | none => rfl
  | some text => rfl

/-- The text of a cell is the one that was found for its token, and what is read behind it is
the next token of the row. -/
theorem tryCellText_found {p : Otsl × Option (List Char)} (hp : p ≠ (.fcel, none))
    (hcell : p.1 = .fcel ∨ p.1 = .ecel) (hfree : ∀ text, p.2 = some text → Free text)
    (row : List (Otsl × Option (List Char))) (rest : List OtslPart) :
    ∃ cellText right,
      tryCellText p.1 ((p.2.map OtslPart.text).toList ++ (row.flatMap cellParts ++ .token .nl ::
        rest)) = .ok (cellText, right) ∧ Free cellText ∧
      (right.head? = some (.token .lcel) ∨ right.head? = some (.token .xcel) → row ≠ []) := by
  have hend : ∀ right : List OtslPart, right = row.flatMap cellParts ++ .token .nl :: rest →
      right.head? = some (.token .lcel) ∨ right.head? = some (.token .xcel) → row ≠ [] := by
    rintro right rfl hright rfl
    simp at hright
  obtain ⟨token, found⟩ := p
  simp only at hcell hfree ⊢
  rcases hcell with rfl | rfl
  · cases found with
    | none => exact absurd rfl hp
    | some text => exact ⟨text, _, rfl, hfree text rfl, hend _ rfl⟩
  · refine ⟨[], _, rfl, free_nil, ?_⟩
    cases found with
    | none => exact hend _ rfl
    | some text =>
      intro hright
      simp at hright

/-- The cells of the rest of a row. -/
theorem tryOtslCells_row {w : ℕ} (hwidth : ∀ row ∈ rows, row.length = w)
    {whole : List Otsl} (hwhole : rows[rIdx]? = some whole)
    {row : List (Otsl × Option (List Char))} (hlength : cIdx + row.length = w)
    (hnl : ∀ p ∈ row, p.1 ≠ .nl) (hfilled : (Otsl.fcel, none) ∉ row)
    (hfree : ∀ p ∈ row, ∀ text, p.2 = some text → Free text) (rest : List OtslPart) :
    ∃ cells : List TableCell, (∀ cell ∈ cells, Free cell.text) ∧
      tryOtslCells rows rIdx cIdx (row.flatMap cellParts ++ .token .nl :: rest) =
        (tryOtslCells rows (rIdx + 1) 0 rest).map (cells ++ ·) := by
  induction row generalizing cIdx with
  | nil =>
    refine ⟨[], by simp, ?_⟩
    change tryOtslCells rows (rIdx + 1) 0 rest = _
    cases tryOtslCells rows (rIdx + 1) 0 rest <;> rfl
  | cons p row ih =>
    rw [List.length_cons] at hlength
    obtain ⟨cells, hcells, hread⟩ := @ih (cIdx + 1) (by omega)
      (fun q hq => hnl q (List.mem_cons_of_mem p hq)) (fun h => hfilled (List.mem_cons_of_mem p h))
      (fun q hq => hfree q (List.mem_cons_of_mem p hq))
    have hrest := (tryOtslCells_found p.2 _).trans hread
    rw [List.flatMap_cons, cellParts, List.cons_append, List.cons_append, List.append_assoc,
      tryOtslCells_token (hnl p List.mem_cons_self), hrest]
    by_cases hcell : p.1 = .fcel ∨ p.1 = .ecel
    · obtain ⟨cellText, right, htext, hfree', hright⟩ := tryCellText_found
        (fun h => hfilled (h ▸ List.mem_cons_self)) hcell (hfree p List.mem_cons_self) row rest
      have hlt : ∀ row' ∈ rows, cIdx < row'.length := by
        intro row' hrow'
        rw [hwidth row' hrow']
        omega
      have hspan : right.head? = some (.token .lcel) ∨ right.head? = some (.token .xcel) →
          cIdx + 1 < whole.length := by
        intro h
        have hpos := List.length_pos_iff.mpr (hright h)
        rw [hwidth whole (List.mem_of_getElem? hwhole)]
        omega
      obtain ⟨cell, hok, hstrip⟩ := tryOtslCell_ok htext hwhole hlt hspan
      refine ⟨cell :: cells, ?_, ?_⟩
      · intro cell' hcell'
        rcases List.mem_cons.mp hcell' with rfl | hcell'
        · rw [hstrip]
          exact free_strip hfree'
        · exact hcells cell' hcell'
      · rw [if_pos hcell, hok]
        cases tryOtslCells rows (rIdx + 1) 0 rest <;> rfl
    · rw [if_neg hcell]
      exact ⟨cells, hcells, rfl⟩

/-- Rows of one width in which every filled cell has its text become cells without tokens in
their texts. -/
theorem tryOtslCells_rows {w : ℕ} (hwidth : ∀ row ∈ rows, row.length = w)
    {found : List (List (Otsl × Option (List Char)))}
    (hfound : found.map (·.map Prod.fst) = rows.drop rIdx)
    (hnl : ∀ row ∈ found, ∀ p ∈ row, p.1 ≠ .nl) (hfilled : Filled found)
    (hfree : ∀ row ∈ found, ∀ p ∈ row, ∀ text, p.2 = some text → Free text) :
    ∃ cells, tryOtslCells rows rIdx 0 (found.flatMap rowParts) = .ok cells ∧
      ∀ cell ∈ cells, Free cell.text := by
  induction found generalizing rIdx with
  | nil => exact ⟨[], rfl, by simp⟩
  | cons row found ih =>
    rw [List.map_cons] at hfound
    have hwhole : rows[rIdx]? = some (row.map Prod.fst) := by
      rw [← List.head?_drop, ← hfound, List.head?_cons]
    have hdrop : found.map (·.map Prod.fst) = rows.drop (rIdx + 1) := by
      rw [← List.tail_drop, ← hfound, List.tail_cons]
    have hlength : 0 + row.length = w := by
      rw [Nat.zero_add, ← List.length_map Prod.fst, hwidth _ (List.mem_of_getElem? hwhole)]
    obtain ⟨cells, hread, hcells⟩ := ih hdrop
      (fun row' h => hnl row' (List.mem_cons_of_mem row h))
      (fun row' h => hfilled row' (List.mem_cons_of_mem row h))
      (fun row' h => hfree row' (List.mem_cons_of_mem row h))
    obtain ⟨rowCells, hrowCells, hrow⟩ := tryOtslCells_row hwidth hwhole hlength
      (hnl row List.mem_cons_self) (hfilled row List.mem_cons_self)
      (hfree row List.mem_cons_self) (found.flatMap rowParts)
    refine ⟨rowCells ++ cells, ?_, ?_⟩
    · rw [List.flatMap_cons, rowParts, List.append_assoc, List.singleton_append, hrow, hread]
      rfl
    · intro cell hcell
      rcases List.mem_append.mp hcell with h | h
      · exact hrowCells cell h
      · exact hcells cell h

/-! ## A filled cell without its text -/

/-- The part behind the token of a filled cell becomes its text. -/
theorem mem_tryOtslCells {pre post : List OtslPart} {part : OtslPart} {cells : List TableCell}
    (h : tryOtslCells rows rIdx cIdx (pre ++ .token .fcel :: part :: post) = .ok cells) :
    ∃ cell ∈ cells, cell.text = strip part.str := by
  induction pre generalizing rIdx cIdx cells with
  | nil =>
    obtain ⟨cell, hcell, h⟩ := bind_eq_ok h
    obtain ⟨rest, -, h⟩ := bind_eq_ok h
    refine ⟨cell, ?_, ?_⟩
    · rw [← Except.ok.inj h]
      exact List.mem_cons_self
    · rw [tryOtslCell_eq_ok hcell]
      rfl
  | cons first pre ih =>
    cases first with
    | text text => exact ih h
    | token token =>
      by_cases hnl : token = .nl
      · rw [hnl] at h
        exact ih h
      · rw [List.cons_append, tryOtslCells_token hnl] at h
        split at h
        · obtain ⟨cell, -, h⟩ := bind_eq_ok h
          obtain ⟨rest, hrest, h⟩ := map_eq_ok h
          obtain ⟨cell', hmem, htext⟩ := ih hrest
          refine ⟨cell', ?_, htext⟩
          rw [← h]
          exact List.mem_cons_of_mem cell hmem
        · exact ih h

end Reading

theorem exists_token_behind {row : List (Otsl × Option (List Char))}
    (h : (Otsl.fcel, none) ∈ row) :
    ∃ pre post token, rowParts row = pre ++ .token .fcel :: .token token :: post := by
  obtain ⟨before, behind, rfl⟩ := List.append_of_mem h
  have hnext : ∃ token post, rowParts behind = .token token :: post := by
    cases behind with
    | nil => exact ⟨.nl, [], rfl⟩
    | cons p behind => exact ⟨p.1, _, rfl⟩
  obtain ⟨token, post, hpost⟩ := hnext
  refine ⟨before.flatMap cellParts, post, token, ?_⟩
  rw [← hpost, rowParts, List.flatMap_append, List.append_assoc]
  rfl

/-- The texts of the cells have no tokens in them, and there is no error, if and only if a text
is found for every filled cell. -/
theorem tryOtslCells_free_iff {rows : List (List Otsl)} {w : ℕ}
    (hwidth : ∀ row ∈ rows, row.length = w)
    {found : List (List (Otsl × Option (List Char)))} (hfound : found.map (·.map Prod.fst) = rows)
    (hnl : ∀ row ∈ found, ∀ p ∈ row, p.1 ≠ .nl)
    (hfree : ∀ row ∈ found, ∀ p ∈ row, ∀ text, p.2 = some text → Free text) :
    (∃ cells, tryOtslCells rows 0 0 (found.flatMap rowParts) = .ok cells ∧
      ∀ cell ∈ cells, Free cell.text) ↔ Filled found := by
  refine ⟨?_, fun hfilled => tryOtslCells_rows hwidth hfound hnl hfilled hfree⟩
  rintro ⟨cells, hread, hcells⟩ row hrow hmem
  obtain ⟨pre, post, token, hparts⟩ := exists_token_behind hmem
  obtain ⟨before, behind, rfl⟩ := List.append_of_mem hrow
  have htexts : (before ++ row :: behind).flatMap rowParts = (before.flatMap rowParts ++ pre) ++
      .token .fcel :: .token token :: (post ++ behind.flatMap rowParts) := by
    rw [List.flatMap_append, List.flatMap_cons, hparts]
    simp only [List.append_assoc, List.cons_append]
  rw [htexts] at hread
  obtain ⟨cell, hcell, htext⟩ := mem_tryOtslCells hread
  refine hcells cell hcell token ?_
  rw [htext]
  exact (strip_text token).symm ▸ List.infix_rfl

end RagflowMineru.MinerU
