import Mathlib.Data.PNat.Basic
import RagflowMineru.Library.Bisection
import RagflowMineru.Library.Paging
import RagflowMineru.MinerU.Otsl

/-!
# The rows of a worksheet

A worksheet can claim a million rows of which most are empty.  From 10000 rows on the last row
with data is searched by bisection, ten rows at a time, and the 500 rows from there on are looked
at one by one.  The rows up to there are written as tables of at most `chunk_rows` rows.
-/

namespace RagflowMineru.Deepdoc

open Library

abbrev Text : Type := List Char

/-- A cell is filled when its value, as a string, is not blank. -/
def filled (value : Option Text) : Bool := value.any fun s => MinerU.strip s ≠ []

/-- A worksheet with the strings of its values; what is filled is in the rows and columns that
it claims. -/
structure Worksheet where
  maxRow : ℕ
  maxColumn : ℕ
  cell : ℕ → ℕ → Option Text
  within : ∀ r c, filled (cell r c) → (1 ≤ r ∧ r ≤ maxRow) ∧ 1 ≤ c ∧ c ≤ maxColumn

namespace Worksheet

variable (ws : Worksheet)

/-- `row_has_data`: the first 50 columns are looked at. -/
def rowHasData (rowIdx : ℕ) : Bool :=
  let maxCol := min (if ws.maxColumn = 0 then 1 else ws.maxColumn) 50
  (List.range' 1 maxCol).any fun colIdx => filled (ws.cell rowIdx colIdx)

/-- The first row with data in the window at `mid`. -/
def firstInWindow (mid : ℕ) : Option ℕ :=
  (List.range' mid (min (mid + 10) (ws.maxRow + 1) - mid)).find? ws.rowHasData

/-- The binary search; `bound` is `right + 1`. -/
def searchRows (left bound lastDataRow : ℕ) : ℕ :=
  if _hlt : left < bound then
    match ws.firstInWindow (middle left bound) with
    | some r => searchRows (middle left bound + 1) bound (max lastDataRow r)
    | none => searchRows left (middle left bound) lastDataRow
  else lastDataRow
  termination_by bound - left
  decreasing_by
  · have hmiddle := middle_spec _hlt
    omega
  · have hmiddle := middle_spec _hlt
    omega

/-- The last loop: 500 rows from `lastDataRow` on. -/
def scanRows (lastDataRow : ℕ) : ℕ :=
  (List.range' lastDataRow (min (lastDataRow + 500) (ws.maxRow + 1) - lastDataRow)).foldl
    (fun last r => if ws.rowHasData r then r else last) lastDataRow

/-- `_get_actual_row_count`. -/
def getActualRowCount : ℕ :=
  if ws.maxRow = 0 then 0
  else if ws.maxRow ≤ 10000 then ws.maxRow
  else if ¬ (List.range' 1 (min 101 (ws.maxRow + 1) - 1)).any ws.rowHasData then 0
  else ws.scanRows (ws.searchRows 1 (ws.maxRow + 1) 1)

def row (r : ℕ) : List (Option Text) := (List.range' 1 ws.maxColumn).map (ws.cell r)

/-- `_get_rows_limited`. -/
def getRowsLimited : List (List (Option Text)) :=
  if ws.getActualRowCount = 0 then [] else (List.range' 1 ws.getActualRowCount).map ws.row

def HasData (r : ℕ) : Prop := ∃ c, filled (ws.cell r c)

/-- Every row with data is returned, at its place. -/
def KeepsRows : Prop := ∀ r, ws.HasData r → ws.getRowsLimited[r - 1]? = some (ws.row r)

/-- One of ten rows from `m` on has data. -/
def NearData (m : ℕ) : Prop := ∃ r, m ≤ r ∧ r < m + 10 ∧ ws.HasData r

/-- Rows with data are left behind by less than 500 rows: by the first row, or by one with data
that a bisection towards it finds, all middles up to it being near to data. -/
def Reachable : Prop :=
  ∃ t, (t = 1 ∨ ws.HasData t ∧ ∀ m ∈ passedTo t 1 (ws.maxRow + 1), ws.NearData m) ∧
    ∀ r, ws.HasData r → r < t + 500

/-! ## The rows that are found -/

section Rows

variable {ws} {r m : ℕ}

theorem HasData.within (h : ws.HasData r) : 1 ≤ r ∧ r ≤ ws.maxRow := by
  obtain ⟨c, hc⟩ := h
  exact (ws.within r c hc).1

theorem HasData.of_rowHasData (h : ws.rowHasData r = true) : ws.HasData r := by
  obtain ⟨c, -, hc⟩ := List.any_eq_true.mp h
  exact ⟨c, hc⟩

theorem rowHasData_iff (hcols : ∀ r c, filled (ws.cell r c) → c ≤ 50) :
    ws.rowHasData r = true ↔ ws.HasData r := by
  refine ⟨HasData.of_rowHasData, ?_⟩
  rintro ⟨c, hc⟩
  obtain ⟨-, hone, hmax⟩ := ws.within r c hc
  have hfifty := hcols r c hc
  refine List.any_eq_true.mpr ⟨c, List.mem_range'_1.mpr ⟨hone, ?_⟩, hc⟩
  rw [if_neg (by omega)]
  omega

theorem firstInWindow_some (h : ws.firstInWindow m = some r) :
    m ≤ r ∧ r < m + 10 ∧ r ≤ ws.maxRow ∧ ws.HasData r := by
  have hmem := List.mem_range'_1.mp (List.mem_of_find?_eq_some h)
  have hdata := List.find?_some h
  exact ⟨hmem.1, by omega, by omega, HasData.of_rowHasData hdata⟩

theorem firstInWindow_isSome_iff (hcols : ∀ r c, filled (ws.cell r c) → c ≤ 50) :
    (ws.firstInWindow m).isSome = true ↔ ws.NearData m := by
  rw [firstInWindow, List.find?_isSome]
  constructor
  · rintro ⟨r, hmem, hdata⟩
    have hmem := List.mem_range'_1.mp hmem
    exact ⟨r, hmem.1, by omega, HasData.of_rowHasData hdata⟩
  · rintro ⟨r, hle, hlt, hdata⟩
    have hwithin := hdata.within
    exact ⟨r, List.mem_range'_1.mpr ⟨hle, by omega⟩, (rowHasData_iff hcols).mpr hdata⟩

/-- What is found in front of the end of the bisection stands in front of it. -/
theorem firstInWindow_lt_stop (hcols : ∀ r c, filled (ws.cell r c) → c ≤ 50) {e : ℕ}
    (he : stop (fun m => (ws.firstInWindow m).isSome = true) 1 (ws.maxRow + 1) = e) (hm : m < e)
    (h : ws.firstInWindow m = some r) : r < e := by
  obtain ⟨hmr, hlt, hmax, hdata⟩ := firstInWindow_some h
  rcases @stop_eq_or (fun m => (ws.firstInWindow m).isSome = true) _ 1 (ws.maxRow + 1) (by omega)
    with hend | hno
  · omega
  · rw [he, firstInWindow_isSome_iff hcols] at hno
    by_contra hle
    exact hno ⟨r, not_lt.mp hle, by omega, hdata⟩

/-- The row before the end has data, unless nothing was found at all. -/
theorem hasData_of_stop (hcols : ∀ r c, filled (ws.cell r c) → c ≤ 50) {t : ℕ}
    (he : stop (fun m => (ws.firstInWindow m).isSome = true) 1 (ws.maxRow + 1) = t + 1)
    (ht : 1 ≤ t) : ws.HasData t := by
  rcases @stop_eq_left_or (fun m => (ws.firstInWindow m).isSome = true) _ 1 (ws.maxRow + 1)
    (by omega) with hone | ⟨t', heq, -, hgood⟩
  · omega
  · obtain rfl : t' = t := by omega
    obtain ⟨r, hr⟩ := Option.isSome_iff_exists.mp hgood
    have hlt := firstInWindow_lt_stop hcols he (Nat.lt_succ_self t') hr
    obtain ⟨hle, -, -, hdata⟩ := firstInWindow_some hr
    obtain rfl : r = t' := by omega
    exact hdata

theorem searchRows_eq (hcols : ∀ r c, filled (ws.cell r c) → c ≤ 50) {e left bound last : ℕ}
    (he : stop (fun m => (ws.firstInWindow m).isSome = true) 1 (ws.maxRow + 1) = e)
    (hstop : stop (fun m => (ws.firstInWindow m).isSome = true) left bound = e)
    (hle : left ≤ bound) :
    ws.searchRows left bound last = if left < e then max last (e - 1) else last := by
  induction left, bound, last using searchRows.induct ws with
  | case1 left bound last hlt r hr ih =>
    have hmiddle := middle_spec hlt
    have hbelow := (@stop_bounds (fun m => (ws.firstInWindow m).isSome = true) _
      (middle left bound + 1) bound hmiddle.2).1
    rw [stop, dif_pos hlt, if_pos (by rw [hr]; rfl)] at hstop
    rw [hstop] at hbelow
    have hre := firstInWindow_lt_stop hcols he hbelow hr
    have hmr := (firstInWindow_some hr).1
    have hleft : left < e := by omega
    rw [searchRows, dif_pos hlt]
    simp only [hr]
    rw [ih hstop hmiddle.2, if_pos hleft]
    split_ifs <;> omega
  | case2 left bound last hlt hnone ih =>
    have hmiddle := middle_spec hlt
    rw [stop, dif_pos hlt, if_neg (by rw [hnone]; exact Bool.false_ne_true)] at hstop
    rw [searchRows, dif_pos hlt]
    simp only [hnone]
    exact ih hstop hmiddle.1
  | case3 left bound last hlt =>
    rw [stop, dif_neg hlt] at hstop
    rw [searchRows, dif_neg hlt, if_neg (by omega)]

theorem scanRows_spec (ws : Worksheet) (last : ℕ) :
    last ≤ ws.scanRows last ∧ ws.scanRows last < last + 500 ∧
      ∀ r, last ≤ r → r < last + 500 → r ≤ ws.maxRow → ws.rowHasData r = true →
        r ≤ ws.scanRows last := by
  have hscan : ∀ n, ∀ s, s = (List.range' last n).foldl
      (fun last r => if ws.rowHasData r then r else last) last →
      last ≤ s ∧ s ≤ last + (n - 1) ∧
        ∀ r, last ≤ r → r < last + n → ws.rowHasData r = true → r ≤ s := by
    intro n
    induction n with
    | zero =>
      rintro s rfl
      exact ⟨le_rfl, le_rfl, fun r hle hlt => by omega⟩
    | succ n ih =>
      rintro s rfl
      obtain ⟨hlast, hle, hall⟩ := ih _ rfl
      rw [List.range'_concat, List.foldl_append, List.foldl_cons, List.foldl_nil, one_mul]
      by_cases hdata : ws.rowHasData (last + n) = true
      · rw [if_pos hdata]
        exact ⟨Nat.le_add_right _ _, le_rfl, fun r _ hlt _ => by omega⟩
      · rw [if_neg hdata]
        refine ⟨hlast, by omega, fun r hfrom hlt hr => hall r hfrom ?_ hr⟩
        rcases Nat.lt_succ_iff_lt_or_eq.mp (Nat.add_succ last n ▸ hlt) with hlt | rfl
        · exact hlt
        · exact absurd hr hdata
  obtain ⟨hlast, hle, hall⟩ := hscan _ _ rfl
  refine ⟨hlast, lt_of_le_of_lt hle (by omega), fun r hfrom hlt hmax hr => hall r hfrom ?_ hr⟩
  omega

theorem keepsRows_iff_le : ws.KeepsRows ↔ ∀ r, ws.HasData r → r ≤ ws.getActualRowCount := by
  have hget : ∀ r, ws.HasData r →
      (ws.getRowsLimited[r - 1]? = some (ws.row r) ↔ r ≤ ws.getActualRowCount) := by
    intro r hr
    have hone := hr.within.1
    rw [getRowsLimited]
    by_cases hzero : ws.getActualRowCount = 0
    · rw [if_pos hzero]
      refine iff_of_false (fun h => ?_) (by omega)
      cases h
    · rw [if_neg hzero, List.getElem?_map]
      by_cases hle : r ≤ ws.getActualRowCount
      · rw [List.getElem?_range' (by omega), Option.map_some, one_mul, Nat.add_sub_cancel' hone]
        exact iff_of_true rfl hle
      · rw [List.getElem?_eq_none (by rw [List.length_range']; omega)]
        refine iff_of_false (fun h => ?_) hle
        cases h
  exact forall₂_congr hget

/-- Behind the bisection, 500 rows are looked at. -/
theorem keepsRows_iff_stop (hcols : ∀ r c, filled (ws.cell r c) → c ≤ 50)
    (hlarge : 10000 < ws.maxRow) (hfirst : ∃ r ≤ 100, ws.HasData r) {e : ℕ}
    (he : stop (fun m => (ws.firstInWindow m).isSome = true) 1 (ws.maxRow + 1) = e) :
    ws.KeepsRows ↔ ∀ r, ws.HasData r → r < max 1 (e - 1) + 500 := by
  obtain ⟨r₀, hr₀, hdata₀⟩ := hfirst
  have hany : (List.range' 1 (min 101 (ws.maxRow + 1) - 1)).any ws.rowHasData = true := by
    have hone := hdata₀.within.1
    refine List.any_eq_true.mpr ⟨r₀, List.mem_range'_1.mpr ⟨hone, by omega⟩, ?_⟩
    exact (rowHasData_iff hcols).mpr hdata₀
  have hsearch : ws.searchRows 1 (ws.maxRow + 1) 1 = max 1 (e - 1) := by
    have hbelow := (@stop_bounds (fun m => (ws.firstInWindow m).isSome = true) _ 1
      (ws.maxRow + 1) (by omega)).1
    rw [searchRows_eq hcols he he (by omega)]
    split_ifs with h
    · rfl
    · omega
  have hcount : ws.getActualRowCount = ws.scanRows (max 1 (e - 1)) := by
    rw [getActualRowCount, if_neg (by omega), if_neg (by omega), if_neg (not_not.mpr hany), hsearch]
  obtain ⟨hle, hlt, hall⟩ := scanRows_spec ws (max 1 (e - 1))
  rw [keepsRows_iff_le, hcount]
  constructor
  · exact fun h r hr => (h r hr).trans_lt hlt
  · intro h r hr
    by_cases hfrom : max 1 (e - 1) ≤ r
    · exact hall r hfrom (h r hr) hr.within.2 ((rowHasData_iff hcols).mpr hr)
    · exact (not_le.mp hfrom).le.trans hle

theorem reachable_iff_stop (hcols : ∀ r c, filled (ws.cell r c) → c ≤ 50) {e : ℕ}
    (he : stop (fun m => (ws.firstInWindow m).isSome = true) 1 (ws.maxRow + 1) = e) :
    ws.Reachable ↔ ∀ r, ws.HasData r → r < max 1 (e - 1) + 500 := by
  have hone : 1 ≤ ws.maxRow + 1 := by omega
  constructor
  · rintro ⟨t, ht, hall⟩ r hr
    have hlt := hall r hr
    rcases ht with rfl | ⟨hdata, hgood⟩
    · omega
    · have hwithin := hdata.within
      have hbelow := @lt_stop_of_good (fun m => (ws.firstInWindow m).isSome = true) _ 1
        (ws.maxRow + 1) t hone (by omega)
        (fun m hm => (firstInWindow_isSome_iff hcols).mpr (hgood m hm)) hwithin.1
      omega
  · intro hall
    by_cases hfound : 2 ≤ e
    · obtain ⟨t, rfl⟩ : ∃ t, e = t + 1 := ⟨e - 1, by omega⟩
      refine ⟨t, .inr ⟨hasData_of_stop hcols he (by omega), fun m hm => ?_⟩, fun r hr => ?_⟩
      · exact (firstInWindow_isSome_iff hcols).mp (good_of_mem_passedTo hone he m hm)
      · have hlt := hall r hr
        omega
    · refine ⟨1, .inl rfl, fun r hr => ?_⟩
      have hlt := hall r hr
      omega

end Rows

/-- No row with data is lost, if and only if the sheet claims at most 10000 rows, or has no data,
or one of the first 100 rows has data and a bisection leaves less than 500 rows behind. -/
theorem keepsRows_iff (ws : Worksheet) (hcols : ∀ r c, filled (ws.cell r c) → c ≤ 50) :
    ws.KeepsRows ↔ ws.maxRow ≤ 10000 ∨ (∀ r, ¬ ws.HasData r) ∨
      (∃ r ≤ 100, ws.HasData r) ∧ ws.Reachable := by
  by_cases hsmall : ws.maxRow ≤ 10000
  · refine iff_of_true (keepsRows_iff_le.mpr fun r hr => ?_) (.inl hsmall)
    have hwithin := hr.within
    rw [getActualRowCount, if_neg (by omega), if_pos hsmall]
    exact hwithin.2
  by_cases hnone : ∀ r, ¬ ws.HasData r
  · exact iff_of_true (keepsRows_iff_le.mpr fun r hr => absurd hr (hnone r)) (.inr (.inl hnone))
  rw [or_iff_right hsmall, or_iff_right hnone]
  by_cases hfirst : ∃ r ≤ 100, ws.HasData r
  · rw [and_iff_right hfirst, reachable_iff_stop hcols rfl]
    exact keepsRows_iff_stop hcols (not_le.mp hsmall) hfirst rfl
  · refine iff_of_false (fun h => hnone fun r hr => ?_) (not_and_of_not_left _ hfirst)
    have hany : ¬ (List.range' 1 (min 101 (ws.maxRow + 1) - 1)).any ws.rowHasData = true := by
      intro hany
      obtain ⟨r', hr', hdata⟩ := List.any_eq_true.mp hany
      have hmem := List.mem_range'_1.mp hr'
      exact hfirst ⟨r', by omega, HasData.of_rowHasData hdata⟩
    have hle := keepsRows_iff_le.mp h r hr
    have hwithin := hr.within
    rw [getActualRowCount, if_neg (by omega), if_neg hsmall, if_pos hany] at hle
    omega

/-- A column of 10001 rows with something in the first and in the last one. -/
def firstAndLast : Worksheet where
  maxRow := 10001
  maxColumn := 1
  cell r c := if (r = 1 ∨ r = 10001) ∧ c = 1 then some ['x'] else none
  within r c h := by
    split_ifs at h with hrc
    · omega
    · cases h

theorem firstAndLast_cell (r c : ℕ) : firstAndLast.cell r c =
    if (r = 1 ∨ r = 10001) ∧ c = 1 then some ['x'] else none := rfl

theorem firstAndLast_hasData_iff (r : ℕ) : firstAndLast.HasData r ↔ r = 1 ∨ r = 10001 := by
  constructor
  · rintro ⟨c, hc⟩
    by_contra hr
    rw [firstAndLast_cell, if_neg (fun h => hr h.1)] at hc
    cases hc
  · intro hr
    refine ⟨1, ?_⟩
    rw [firstAndLast_cell, if_pos ⟨hr, rfl⟩]
    decide

theorem firstAndLast_columns : ∀ r c, filled (firstAndLast.cell r c) → c ≤ 50 := fun r c h =>
  (firstAndLast.within r c h).2.2.trans (by decide)

theorem keepsRows_iff_firstAndLast :
    firstAndLast.KeepsRows ↔ firstAndLast.maxRow ≤ 10000 ∨ (∀ r, ¬ firstAndLast.HasData r) ∨
      (∃ r ≤ 100, firstAndLast.HasData r) ∧ firstAndLast.Reachable :=
  keepsRows_iff firstAndLast firstAndLast_columns

/-- The first middle is 5001, where nothing is near. -/
theorem not_keepsRows_firstAndLast : ¬ firstAndLast.KeepsRows := by
  intro h
  obtain ⟨e, he⟩ : ∃ e, stop (fun m => (firstAndLast.firstInWindow m).isSome = true) 1
    (firstAndLast.maxRow + 1) = e := ⟨_, rfl⟩
  have hlt := (keepsRows_iff_stop firstAndLast_columns (by decide)
    ⟨1, by decide, (firstAndLast_hasData_iff 1).mpr (.inl rfl)⟩ he).mp h 10001
    ((firstAndLast_hasData_iff _).mpr (.inr rfl))
  obtain ⟨t, rfl⟩ : ∃ t, e = t + 1 := ⟨e - 1, by omega⟩
  -- the search cannot end behind the middle
  have hlast : t = 10001 := by
    have hdata := hasData_of_stop firstAndLast_columns he (by omega)
    exact ((firstAndLast_hasData_iff t).mp hdata).resolve_left (by omega)
  subst hlast
  have hmiddle : 5001 ∈ passedTo 10001 1 (firstAndLast.maxRow + 1) := by
    rw [passedTo, dif_pos (by decide), if_pos (by decide)]
    exact List.mem_cons_self
  have hgood := good_of_mem_passedTo (by decide) he 5001 hmiddle
  obtain ⟨r, hle, hnear, hdata⟩ := (firstInWindow_isSome_iff firstAndLast_columns).mp hgood
  have hr := (firstAndLast_hasData_iff r).mp hdata
  omega

end Worksheet

/-! ## Tables of a sheet -/

abbrev Row : Type := List (Option Text)

/-- `_fmt`. -/
def fmt (v : Option Text) : Text := (v.map MinerU.strip).getD []

/-- A table before it is written: the header of the sheet and some of its rows. -/
structure SheetTable where
  caption : Text
  header : Row
  rows : List Row
  deriving DecidableEq

def SheetTable.html (t : SheetTable) : Text :=
  "<table><caption>".toList ++ t.caption ++ "</caption>".toList ++
    ("<tr>".toList ++
      (t.header.flatMap fun c =>
        "<th>".toList ++ MinerU.htmlEscape (fmt c) ++ "</th>".toList) ++ "</tr>".toList) ++
    (t.rows.flatMap fun r =>
      "<tr>".toList ++
        (r.flatMap fun c =>
          if c = none then "<td></td>".toList
          else "<td>".toList ++ MinerU.htmlEscape (fmt c) ++ "</td>".toList) ++
        "</tr>".toList) ++
    "</table>\n".toList

/-- The loop over `chunk_i`. -/
def sheetTables (sheetname : Text) (rows : List Row) (chunkRows : ℕ+) : List SheetTable :=
  match rows with
  | [] => []
  | header :: _ =>
      (List.range ((rows.length - 1) / chunkRows + 1)).map fun chunkI =>
        { caption := sheetname
          header := header
          rows := (rows.drop (1 + chunkI * chunkRows)).take
            (min (1 + (chunkI + 1) * chunkRows) rows.length - (1 + chunkI * chunkRows)) }

/-- `html` -/
def html (sheets : List (Text × Worksheet)) (chunkRows : ℕ+) : List Text :=
  sheets.flatMap fun sheet =>
    (sheetTables sheet.1 sheet.2.getRowsLimited chunkRows).map SheetTable.html

/-- Each data row is in one table, in order, and none of the tables is too long or has no data
rows, unless there are none. -/
structure Chunked (dataRows : List Row) (chunkRows : ℕ) (tables : List SheetTable) : Prop where
  rows : (tables.map SheetTable.rows).flatten = dataRows
  length_le : ∀ t ∈ tables, t.rows.length ≤ chunkRows
  ne_nil : dataRows ≠ [] → ∀ t ∈ tables, t.rows ≠ []

theorem sheetTables_cons (sheetname : Text) (header : Row) (dataRows : List Row) (chunkRows : ℕ+) :
    sheetTables sheetname (header :: dataRows) chunkRows =
      (List.range (dataRows.length / chunkRows + 1)).map fun chunkI =>
        ⟨sheetname, header, (dataRows.drop (chunkI * chunkRows)).take chunkRows⟩ := by
  rw [sheetTables, List.length_cons, Nat.add_sub_cancel]
  refine List.map_congr_left fun chunkI _ => ?_
  congr 1
  rw [Nat.add_comm 1 (chunkI * chunkRows), List.drop_succ_cons, Nat.succ_mul]
  rcases le_total (chunkI * chunkRows + chunkRows) dataRows.length with hle | hle
  · congr 1
    omega
  · rw [List.take_of_length_le (by rw [List.length_drop]; omega),
      List.take_of_length_le (by rw [List.length_drop]; omega)]

/-- The data rows are chunked, if and only if the last chunk is not a full one. -/
theorem chunked_iff (sheetname : Text) (header : Row) (dataRows : List Row) (chunkRows : ℕ+) :
    Chunked dataRows chunkRows (sheetTables sheetname (header :: dataRows) chunkRows) ↔
      dataRows = [] ∨ ¬ (chunkRows : ℕ) ∣ dataRows.length := by
  rw [sheetTables_cons]
  have hdiv := Nat.div_mul_le_self dataRows.length chunkRows
  constructor
  · intro h
    by_contra hcon
    obtain ⟨hne, hdvd⟩ := not_or.mp hcon
    refine h.ne_nil hne _ (List.mem_map_of_mem List.self_mem_range_succ) ?_
    dsimp only
    rw [Nat.div_mul_cancel (not_not.mp hdvd), List.drop_length, List.take_nil]
  · intro h
    refine ⟨?_, fun t ht => ?_, fun hne t ht => ?_⟩
    · rw [List.map_map]
      have hall : dataRows.length ≤ (dataRows.length / chunkRows + 1) * chunkRows :=
        (Nat.lt_mul_of_div_lt (Nat.lt_succ_self _) chunkRows.pos).le
      exact (flatMap_slices _ _ _).trans (List.take_of_length_le hall)
    · obtain ⟨chunkI, -, rfl⟩ := List.mem_map.mp ht
      exact List.length_take_le _ _
    · obtain ⟨chunkI, hlt, rfl⟩ := List.mem_map.mp ht
      have hpos := chunkRows.pos
      have hdvd := h.resolve_left hne
      have hle := Nat.mul_le_mul_right (chunkRows : ℕ)
        (Nat.le_of_lt_succ (List.mem_range.mp hlt))
      -- a chunk starts in front of the end, since the rows are no multiple
      have hstart : chunkI * chunkRows < dataRows.length := by
        refine lt_of_le_of_ne (hle.trans hdiv) fun heq => hdvd ?_
        exact ⟨chunkI, by rw [← heq, Nat.mul_comm]⟩
      refine List.ne_nil_of_length_pos ?_
      rw [List.length_take, List.length_drop]
      omega

/-- Two data rows in tables of one row leave a table without a data row. -/
theorem not_chunked_two :
    ¬ Chunked [[some ['1']], [some ['2']]] 1
      (sheetTables ['s'] [[some ['n']], [some ['1']], [some ['2']]] 1) := by
  intro h
  exact h.ne_nil (List.cons_ne_nil _ _) ⟨['s'], [some ['n']], []⟩ (by decide) rfl

end RagflowMineru.Deepdoc
