import RagflowMineru.Deepdoc.TableFigures
import RagflowMineru.Library.CellGrid
import Mathlib.Tactic.NormNum.Ineq

/-!
# Rows and columns of a table

The boxes of a table are sorted and put in rows, sorted again and put in columns; a running edge
says where the next row or column begins.  Then a column with a single filled cell is given up, and
its boxes go to the column beside it, and the same is done with rows.  Whatever the geometry is, a
box stays in the cell of its row and column number, and every row and every column keeps a box.
-/

namespace RagflowMineru.Deepdoc

open Library
open MinerU (strip)

attribute [local instance] MinerU.lawfulBEq_letters

/-- A recognised row or column: `R`, `R_top` and `R_bott`, or `C`, `C_left` and `C_right`. -/
structure Band where
  no : ℕ
  low : ℚ
  high : ℚ

/-- `H_top`, `H_bott`, `H_left` and `H_right` -/
structure Frame where
  top : ℚ
  bottom : ℚ
  left : ℚ
  right : ℚ

/-- A box with the tags of `_table_transformer_job`; `spanning` is the frame that comes with `SP`,
and `header` is `H`. -/
structure TaggedBox extends TextBox where
  row : Option Band
  column : Option Band
  header : Option ℕ
  spanning : Option Frame

/-- `colspan` and `rowspan`: first the places, then their number. -/
inductive Span
  | places (l : List ℕ)
  | size (n : ℕ)

/-- A box in the table. -/
structure TableBox extends TaggedBox where
  rn : ℕ
  cn : ℕ
  colspan : Option Span
  rowspan : Option Span

namespace TableBox

def ofTagged (b : TaggedBox) : TableBox := ⟨b, 0, 0, none, none⟩

/-- `b.get("R")` -/
def rowNo (b : TableBox) : Option ℕ := b.row.map Band.no

/-- `b.get("C")` -/
def columnNo (b : TableBox) : Option ℕ := b.column.map Band.no

def setRn (n : ℕ) (b : TableBox) : TableBox := { b with rn := n }

def setCn (n : ℕ) (b : TableBox) : TableBox := { b with cn := n }

/-- The box without its numbers. -/
def unplaced (b : TableBox) : TableBox := { b with rn := 0, cn := 0 }

/-- `a["rn"] -= 1` -/
def lessRn (b : TableBox) : TableBox := { b with rn := b.rn - 1 }

/-- `a["cn"] -= 1` -/
def lessCn (b : TableBox) : TableBox := { b with cn := b.cn - 1 }

end TableBox

/-! ## Sorting -/

/-- `sorted` with a `cmp_to_key`.  The comparisons with a threshold are no orders, and then nothing
but the permutation is promised. -/
structure CmpSort where
  sorted : (TableBox → TableBox → ℚ) → List TableBox → List TableBox
  perm : ∀ cmp arr, (sorted cmp arr).Perm arr

/-- Within the threshold the other coordinate decides. -/
def cmpWithin (main other : TableBox → ℚ) (threshold : ℚ) (c₁ c₂ : TableBox) : ℚ :=
  if |main c₁ - main c₂| < threshold then other c₁ - other c₂ else main c₁ - main c₂

section Sorting

variable (S : CmpSort)

def sortYFirstly (arr : List TableBox) (threshold : ℚ) : List TableBox :=
  S.sorted (cmpWithin (fun c => c.top) (fun c => c.x0) threshold) arr

def sortXFirstly (arr : List TableBox) (threshold : ℚ) : List TableBox :=
  S.sorted (cmpWithin (fun c => c.x0) (fun c => c.top) threshold) arr

/-- The box `b` with its tag goes before `a`. -/
def goesBefore (tag : TableBox → Option ℕ) (other : TableBox → ℚ) (b a : TableBox) : Bool :=
  match tag b, tag a with
  | some m, some n => m < n || (m = n && other b < other a)
  | _, _ => false

/-- Two neighbours change places when the second goes before the first. -/
def restoreAt (before : TableBox → TableBox → Bool) (arr : List TableBox) (j : ℕ) :
    List TableBox :=
  if h : j + 1 < arr.length then
    if before arr[j + 1] arr[j] then (arr.set j arr[j + 1]).set (j + 1) arr[j] else arr
  else arr

/-- "restore the order using th" -/
def restoreOrder (before : TableBox → TableBox → Bool) (arr : List TableBox) : List TableBox :=
  (List.range (arr.length - 1)).foldl
    (fun arr i => (List.range (i + 1)).reverse.foldl (restoreAt before) arr) arr

def sortCFirstly (arr : List TableBox) (thr : ℚ) : List TableBox :=
  restoreOrder (goesBefore TableBox.columnNo fun c => c.top) (sortXFirstly S arr thr)

def sortRFirstly (arr : List TableBox) (thr : ℚ) : List TableBox :=
  restoreOrder (goesBefore TableBox.rowNo fun c => c.x0) (sortYFirstly S arr thr)

theorem restoreAt_perm (before : TableBox → TableBox → Bool) (arr : List TableBox) (j : ℕ) :
    (restoreAt before arr j).Perm arr := by
  rw [restoreAt]
  split_ifs with h
  · exact List.set_set_perm (Nat.lt_of_succ_lt h) h
  · exact List.Perm.refl arr
  · exact List.Perm.refl arr

theorem foldl_perm {β : Type*} {f : List TableBox → β → List TableBox}
    (hf : ∀ arr x, (f arr x).Perm arr) (xs : List β) (arr : List TableBox) :
    (xs.foldl f arr).Perm arr := by
  induction xs generalizing arr with
  | nil => exact List.Perm.refl arr
  | cons x xs ih => exact (ih (f arr x)).trans (hf arr x)

theorem restoreOrder_perm (before : TableBox → TableBox → Bool) (arr : List TableBox) :
    (restoreOrder before arr).Perm arr :=
  foldl_perm (fun arr _ => foldl_perm (restoreAt_perm before) _ arr) _ arr

theorem sortYFirstly_perm (arr : List TableBox) (thr : ℚ) : (sortYFirstly S arr thr).Perm arr :=
  S.perm _ arr

theorem sortXFirstly_perm (arr : List TableBox) (thr : ℚ) : (sortXFirstly S arr thr).Perm arr :=
  S.perm _ arr

theorem sortCFirstly_perm (arr : List TableBox) (thr : ℚ) : (sortCFirstly S arr thr).Perm arr :=
  (restoreOrder_perm _ _).trans (sortXFirstly_perm S arr thr)

theorem sortRFirstly_perm (arr : List TableBox) (thr : ℚ) : (sortRFirstly S arr thr).Perm arr :=
  (restoreOrder_perm _ _).trans (sortYFirstly_perm S arr thr)

end Sorting

/-! ## Rows and columns by a running edge -/

/-- The loop that makes lines: the closed ones, the last one without its last box, that box and the
running edge. -/
structure Lining where
  closed : List (List TableBox)
  line : List TableBox
  last : TableBox
  edge : ℚ

namespace Lining

def lines (st : Lining) : List (List TableBox) := st.closed ++ [st.line ++ [st.last]]

section

variable (fresh : ℚ → TableBox → TableBox → Bool) (far : TableBox → ℚ)
  (number : ℕ → TableBox → TableBox)

def start (b : TableBox) : Lining := ⟨[], [], number 0 b, far b⟩

def step (st : Lining) (b : TableBox) : Lining :=
  let n := st.closed.length
  if fresh st.edge st.last b then ⟨st.lines, [], number (n + 1) b, far b⟩
  else ⟨st.closed, st.line ++ [st.last], number n b, (st.edge + far b) / 2⟩

/-- The lines of the boxes, each box with the number of its line. -/
def run : List TableBox → List (List TableBox)
  | [] => []
  | b :: boxes => (boxes.foldl (step fresh far number) (start far number b)).lines

end

end Lining

/-- `lst_r[-1].get("R", "-1") != b.get("R", "-2")` -/
def tagsDiffer : Option ℕ → Option ℕ → Bool
  | some m, some n => m ≠ n
  | _, _ => true

def newRow (btm : ℚ) (prev b : TableBox) : Bool :=
  prev.rowNo ≠ b.rowNo || (btm - 3 ≤ b.top && tagsDiffer prev.rowNo b.rowNo)

def newColumn (right : ℚ) (prev b : TableBox) : Bool :=
  (b.columnNo.getD 1 = prev.columnNo.getD 1 + 1 && b.pageNumber = prev.pageNumber) ||
    (right ≤ b.x0 && tagsDiffer prev.columnNo b.columnNo)

/-- The smallest extent of the recognised rows or columns. -/
def leastExtent (bands : List Band) : ℚ := ((bands.map fun d => d.high - d.low).min?).getD 0

section Place

variable (S : CmpSort)

/-- `rows` -/
def makeRows (boxes : List TaggedBox) : List (List TableBox) :=
  Lining.run newRow (fun b => b.bottom) TableBox.setRn
    (sortRFirstly S (boxes.map TableBox.ofTagged) (leastExtent (boxes.filterMap (·.row)) / 2))

/-- `cols`, out of the boxes with their rows -/
def makeColumns (boxes : List TableBox) : List (List TableBox) :=
  let thr := leastExtent (boxes.filterMap (·.column)) / 2
  let crosspage := 1 < (boxes.map fun b => b.pageNumber).dedup.length
  Lining.run newColumn (fun b => b.x1) TableBox.setCn
    (if crosspage then sortXFirstly S boxes thr else sortCFirstly S boxes thr)

end Place

/-- `rows`, `cols` and `tbl`; a line of the grid is a row. -/
structure Layout where
  rows : List (List TableBox)
  cols : List (List TableBox)
  tbl : CellGrid TableBox

/-- The boxes in their cells; `none` is an `IndexError`. -/
def fillTable (rows cols : List (List TableBox)) (boxes : List TableBox) : Option Layout :=
  if boxes.all fun b => b.rn < rows.length && b.cn < cols.length then
    some ⟨rows, cols, .ofItems TableBox.rn TableBox.cn rows.length cols.length boxes⟩
  else none

/-! ## Lines with a single filled cell -/

/-- `cell and cell[0].get("text")` -/
def hasText : List TableBox → Bool
  | [] => false
  | a :: _ => a.text ≠ []

/-- The smallest of the gaps, and 100000 where none is smaller. -/
def leastGap (gaps : List ℚ) : ℚ := gaps.foldl min 100000

/-- What becomes of a line: it stays, or its cell at `p` goes to the line before or behind it. -/
inductive Move
  | keep
  | back (p : ℕ)
  | on (p : ℕ)

section Relocate

variable (lo hi : TaggedBox → ℚ) (renumber : TableBox → TableBox) (g : CellGrid TableBox) (l : ℕ)

/-- `f`: the cell before has a text, or there is none before. -/
def settledBefore (p : ℕ) : Bool := (0 < l && hasText (g.cell (l - 1) p)) || l = 0

/-- `ff`: the cell behind has a text, or there is none behind. -/
def settledBehind (p : ℕ) : Bool :=
  (l + 1 < g.lines && hasText (g.cell (l + 1) p)) || g.lines ≤ l + 1

/-- `left` or `up` -/
def gapBefore (p : ℕ) (bx : TableBox) : ℚ :=
  if 0 < l && !settledBefore g l p then
    leastGap ((g.line (l - 1)).map fun a => lo bx.toTaggedBox - hi a.toTaggedBox)
  else 100000

/-- `right` or `down` -/
def gapBehind (p : ℕ) (bx : TableBox) : ℚ :=
  if l + 1 < g.lines && !settledBehind g l p then
    leastGap ((g.line (l + 1)).map fun a => lo a.toTaggedBox - hi bx.toTaggedBox)
  else 100000

/-- A line with at most one filled cell, at `p`; `none` is an `IndexError` or the assertion that a
neighbour is near. -/
def loneMove (p : ℕ) : Option Move :=
  if settledBefore g l p && settledBehind g l p then some .keep
  else
    match g.cell l p with
    | [] => none
    | bx :: _ =>
        if gapBefore lo hi g l p bx < 100000 ∨ gapBehind lo hi g l p bx < 100000 then
          if gapBefore lo hi g l p bx < gapBehind lo hi g l p bx then some (.back p)
          else some (.on p)
        else none

def moveOf : Option Move :=
  match g.filled l with
  | _ :: _ :: _ => some .keep
  | filled => loneMove lo hi g l (filled.headD 0)

/-- `cols.pop(j)` -/
def popAt {α : Type*} (lines : List α) (l : ℕ) : Option (List α) :=
  if l < lines.length then some (lines.eraseIdx l) else none

/-- The loop from a line on. -/
def relocateFrom : ℕ → CellGrid TableBox → List (List TableBox) → ℕ →
    Option (CellGrid TableBox × List (List TableBox))
  | 0, _, _, _ => none
  | fuel + 1, g, lines, l =>
      if g.lines ≤ l then some (g, lines)
      else
        match moveOf lo hi g l with
        | none => none
        | some .keep => relocateFrom fuel g lines (l + 1)
        | some (.back p) =>
            (popAt lines l).bind fun lines => relocateFrom fuel (g.moveBack renumber l p) lines l
        | some (.on p) =>
            (popAt lines l).bind fun lines => relocateFrom fuel (g.moveOn renumber l p) lines l

def relocate (lines : List (List TableBox)) :
    Option (CellGrid TableBox × List (List TableBox)) :=
  relocateFrom lo hi renumber (g.lines + 1) g lines 0

end Relocate

/-- "remove single in column", and the assertion behind it -/
def relocateColumns (t : Layout) : Option Layout :=
  let moved :=
    if 4 ≤ t.rows.length then
      (relocate (fun b => b.x0) (fun b => b.x1) TableBox.lessCn t.tbl.swap t.cols).map
        fun r => { t with tbl := r.1.swap, cols := r.2 }
    else some t
  moved.filter fun t => t.cols.length = t.tbl.across

/-- "remove single in row" -/
def relocateRows (t : Layout) : Option Layout :=
  if 4 ≤ t.cols.length then
    (relocate (fun b => b.top) (fun b => b.bottom) TableBox.lessRn t.tbl t.rows).map
      fun r => { t with tbl := r.1, rows := r.2 }
  else some t

/-- The part of `construct_table` that makes the table. -/
def layTable (S : CmpSort) (boxes : List TaggedBox) : Option Layout :=
  let rows := makeRows S boxes
  let cols := makeColumns S rows.flatten
  (fillTable rows cols cols.flatten).bind fun t => (relocateColumns t).bind relocateRows

/-! ## Every line has a box -/

/-- Every line has a box, and its boxes carry its number. -/
def Numbered (no : TableBox → ℕ) (lines : List (List TableBox)) : Prop :=
  ∀ i line, lines[i]? = some line → line ≠ [] ∧ ∀ b ∈ line, no b = i

section Numbered

variable {no : TableBox → ℕ} {lines : List (List TableBox)} {line : List TableBox}

theorem numbered_concat :
    Numbered no (lines ++ [line]) ↔
      Numbered no lines ∧ line ≠ [] ∧ ∀ b ∈ line, no b = lines.length := by
  constructor
  · intro h
    refine ⟨fun i l hl => h i l ?_, h lines.length line List.getElem?_concat_length⟩
    rw [List.getElem?_append_left (List.getElem?_eq_some_iff.mp hl).1, hl]
  · rintro ⟨hlines, hne, hno⟩ i l hl
    rcases Nat.lt_trichotomy i lines.length with hi | rfl | hi
    · exact hlines i l (List.getElem?_append_left hi ▸ hl)
    · obtain rfl := Option.some_injective _ (List.getElem?_concat_length.symm.trans hl)
      exact ⟨hne, hno⟩
    · have hlen := (List.getElem?_eq_some_iff.mp hl).1
      rw [List.length_append, List.length_singleton] at hlen
      omega

theorem Numbered.lt (h : Numbered no lines) {b : TableBox} (hb : b ∈ lines.flatten) :
    no b < lines.length := by
  obtain ⟨line, hline, hb⟩ := List.mem_flatten.mp hb
  obtain ⟨i, hi⟩ := List.mem_iff_getElem?.mp hline
  rw [(h i line hi).2 b hb]
  exact (List.getElem?_eq_some_iff.mp hi).1

theorem Numbered.exists_of_lt (h : Numbered no lines) {i : ℕ} (hi : i < lines.length) :
    ∃ b ∈ lines.flatten, no b = i := by
  obtain ⟨hne, hno⟩ := h i lines[i] (List.getElem?_eq_getElem hi)
  obtain ⟨b, hb⟩ := List.exists_mem_of_ne_nil _ hne
  exact ⟨b, List.mem_flatten.mpr ⟨_, List.getElem_mem hi, hb⟩, hno b hb⟩

end Numbered

namespace Lining

variable {β : Type*} {fresh : ℚ → TableBox → TableBox → Bool} {far : TableBox → ℚ}
  {number : ℕ → TableBox → TableBox} {no : TableBox → ℕ} {f : TableBox → β}

theorem numbered_step (hno : ∀ n b, no (number n b) = n) {st : Lining}
    (h : Numbered no st.lines) (b : TableBox) :
    Numbered no (step fresh far number st b).lines := by
  rw [step]
  split_ifs
  · refine numbered_concat.mpr ⟨h, List.append_ne_nil_of_right_ne_nil _ (List.cons_ne_nil _ _), ?_⟩
    intro c hc
    obtain rfl := List.mem_singleton.mp hc
    rw [hno, lines, List.length_append, List.length_singleton]
  · obtain ⟨hclosed, -, hline⟩ := numbered_concat.mp h
    refine numbered_concat.mpr
      ⟨hclosed, List.append_ne_nil_of_right_ne_nil _ (List.cons_ne_nil _ _), ?_⟩
    intro c hc
    rcases List.mem_append.mp hc with hc | hc
    · exact hline c hc
    · rw [List.mem_singleton.mp hc, hno]

theorem flatten_step (hf : ∀ n b, f (number n b) = f b) (st : Lining) (b : TableBox) :
    (step fresh far number st b).lines.flatten.map f = st.lines.flatten.map f ++ [f b] := by
  rw [step]
  split_ifs <;> simp [lines, hf]

theorem numbered_run (hno : ∀ n b, no (number n b) = n) (boxes : List TableBox) :
    Numbered no (run fresh far number boxes) := by
  have hfold : ∀ (boxes : List TableBox) (st : Lining), Numbered no st.lines →
      Numbered no (boxes.foldl (step fresh far number) st).lines := by
    intro boxes
    induction boxes with
    | nil => exact fun st h => h
    | cons b boxes ih => exact fun st h => ih _ (numbered_step hno h b)
  cases boxes with
  | nil => exact fun i line hline => absurd hline (by simp [run])
  | cons b boxes =>
      refine hfold boxes _ (numbered_concat.mpr ⟨?_, List.cons_ne_nil _ _, ?_⟩)
      · exact fun i line hline => absurd hline (by simp [start])
      · intro c hc
        rw [List.mem_singleton.mp hc]
        exact hno 0 b

variable (number) in
theorem flatten_run (hf : ∀ n b, f (number n b) = f b) (boxes : List TableBox) :
    (run fresh far number boxes).flatten.map f = boxes.map f := by
  have hfold : ∀ (boxes : List TableBox) (st : Lining),
      (boxes.foldl (step fresh far number) st).lines.flatten.map f =
        st.lines.flatten.map f ++ boxes.map f := by
    intro boxes
    induction boxes with
    | nil => exact fun st => (List.append_nil _).symm
    | cons b boxes ih =>
        intro st
        rw [List.foldl_cons, ih, flatten_step hf, List.append_assoc]
        rfl
  cases boxes with
  | nil => rfl
  | cons b boxes =>
      rw [run, hfold]
      simp [lines, start, hf]

end Lining

/-! ## What the table keeps -/

/-- A table of the boxes: every row and column has one, and each is in the cell of its numbers. -/
structure Layout.Holds (boxes : List TaggedBox) (t : Layout) : Prop where
  full : t.tbl.Full
  inStep : t.tbl.InStep TableBox.rn TableBox.cn
  contents : t.tbl.contents.map TableBox.unplaced = (boxes.map TableBox.ofTagged : List TableBox)
  rows_length : t.rows.length = t.tbl.lines
  cols_length : t.cols.length = t.tbl.across

/-- No box begins 100000 or more behind the end of another one. -/
def SmallGaps (lo hi : TaggedBox → ℚ) (boxes : Multiset TaggedBox) : Prop :=
  ∀ a ∈ boxes, ∀ b ∈ boxes, lo a - hi b < 100000

structure Compact (boxes : List TaggedBox) : Prop where
  across : SmallGaps (fun b => b.x0) (fun b => b.x1) boxes
  down : SmallGaps (fun b => b.top) (fun b => b.bottom) boxes

theorem Layout.Holds.tagged {boxes : List TaggedBox} {t : Layout} (ht : t.Holds boxes) :
    t.tbl.contents.map TableBox.toTaggedBox = boxes := by
  have htagged := congrArg (Multiset.map TableBox.toTaggedBox) ht.contents
  rw [Multiset.map_map, Multiset.map_coe, List.map_map] at htagged
  exact htagged.trans (congrArg _ (List.map_id boxes))

section Place

variable (S : CmpSort)

theorem numbered_makeRows (boxes : List TaggedBox) : Numbered TableBox.rn (makeRows S boxes) :=
  Lining.numbered_run (fun _ _ => rfl) _

theorem numbered_makeColumns (boxes : List TableBox) :
    Numbered TableBox.cn (makeColumns S boxes) :=
  Lining.numbered_run (fun _ _ => rfl) _

theorem makeRows_perm (boxes : List TaggedBox) :
    ((makeRows S boxes).flatten.map TableBox.unplaced).Perm (boxes.map TableBox.ofTagged) := by
  rw [makeRows, Lining.flatten_run TableBox.setRn fun _ _ => rfl]
  refine ((sortRFirstly_perm S _ _).map _).trans (List.Perm.of_eq ?_)
  rw [List.map_map]
  rfl

theorem makeColumns_perm (boxes : List TableBox) :
    ((makeColumns S boxes).flatten.map fun b => (b.unplaced, b.rn)).Perm
      (boxes.map fun b => (b.unplaced, b.rn)) := by
  rw [makeColumns, Lining.flatten_run TableBox.setCn fun _ _ => rfl]
  apply List.Perm.map
  split_ifs
  · exact sortXFirstly_perm S boxes _
  · exact sortCFirstly_perm S boxes _

/-- The boxes find their cells, and no row or column is empty. -/
theorem fillTable_spec (boxes : List TaggedBox) :
    let rows := makeRows S boxes
    let cols := makeColumns S rows.flatten
    ∃ t, fillTable rows cols cols.flatten = some t ∧ t.Holds boxes := by
  intro rows cols
  have hrows : Numbered TableBox.rn rows := numbered_makeRows S boxes
  have hcols : Numbered TableBox.cn cols := numbered_makeColumns S rows.flatten
  have hperm := makeColumns_perm S rows.flatten
  have hrn : (cols.flatten.map TableBox.rn).Perm (rows.flatten.map TableBox.rn) := by
    have h := hperm.map Prod.snd
    rwa [List.map_map, List.map_map] at h
  have hboxes : (cols.flatten.map TableBox.unplaced).Perm (boxes.map TableBox.ofTagged) := by
    refine List.Perm.trans ?_ (makeRows_perm S boxes)
    have h := hperm.map Prod.fst
    rwa [List.map_map, List.map_map] at h
  have hin : ∀ b ∈ cols.flatten, b.rn < rows.length ∧ b.cn < cols.length := by
    intro b hb
    obtain ⟨c, hc, hcb⟩ := List.mem_map.mp (hrn.mem_iff.mp (List.mem_map_of_mem hb))
    exact ⟨hcb ▸ hrows.lt hc, hcols.lt hb⟩
  refine ⟨_, if_pos ?_, ?_⟩
  · exact List.all_eq_true.mpr fun b hb => by simpa using hin b hb
  · refine ⟨CellGrid.full_ofItems hin ?_ fun p hp => hcols.exists_of_lt hp,
      CellGrid.inStep_ofItems, ?_, rfl, rfl⟩
    · intro l hl
      obtain ⟨c, hc, rfl⟩ := hrows.exists_of_lt hl
      obtain ⟨b, hb, hbc⟩ := List.mem_map.mp (hrn.mem_iff.mpr (List.mem_map_of_mem hc))
      exact ⟨b, hb, hbc⟩
    · rw [CellGrid.contents_ofItems hin, Multiset.map_coe]
      exact Multiset.coe_eq_coe.mpr hboxes

end Place

/-! ## Relocation -/

theorem leastGap_le (gaps : List ℚ) : leastGap gaps ≤ 100000 := by
  have hfold : ∀ (gaps : List ℚ) (d : ℚ), gaps.foldl min d ≤ d := by
    intro gaps
    induction gaps with
    | nil => exact fun d => le_rfl
    | cons x gaps ih => exact fun d => (ih _).trans (min_le_left d x)
  exact hfold gaps 100000

theorem leastGap_lt {gaps : List ℚ} {x : ℚ} (hx : x ∈ gaps) (hlt : x < 100000) :
    leastGap gaps < 100000 := by
  have hfold : ∀ (gaps : List ℚ) (d : ℚ), x ∈ gaps ∨ d < 100000 → gaps.foldl min d < 100000 := by
    intro gaps
    induction gaps with
    | nil => exact fun d h => h.resolve_left List.not_mem_nil
    | cons y gaps ih =>
        intro d h
        apply ih
        rcases h with h | h
        · rcases List.mem_cons.mp h with rfl | h
          · exact Or.inr (min_lt_of_right_lt hlt)
          · exact Or.inl h
        · exact Or.inr (min_lt_of_left_lt h)
  exact hfold gaps 100000 (Or.inl hx)

/-- The neighbour that a move needs is there. -/
def Move.Fits (g : CellGrid TableBox) (l : ℕ) : Move → Prop
  | .keep => True
  | .back p => 0 < l ∧ p < g.across ∧ g.cell l p ≠ [] ∧ g.Lone l p
  | .on p => l + 1 < g.lines ∧ p < g.across ∧ g.cell l p ≠ [] ∧ g.Lone l p

section Relocate

variable {lo hi : TaggedBox → ℚ} {renumber : TableBox → TableBox} {g : CellGrid TableBox} {l p : ℕ}
  {bx : TableBox} {lineOf posOf : TableBox → ℕ}

theorem gapBefore_le : gapBefore lo hi g l p bx ≤ 100000 := by
  rw [gapBefore]
  split_ifs
  · exact leastGap_le _
  · exact le_rfl

theorem gapBehind_le : gapBehind lo hi g l p bx ≤ 100000 := by
  rw [gapBehind]
  split_ifs
  · exact leastGap_le _
  · exact le_rfl

theorem pos_of_gapBefore_lt (h : gapBefore lo hi g l p bx < 100000) : 0 < l := by
  rw [gapBefore] at h
  split_ifs at h with hl
  · exact of_decide_eq_true (Bool.and_eq_true_iff.mp hl).1
  · exact absurd h (lt_irrefl _)

theorem lt_lines_of_gapBehind_lt (h : gapBehind lo hi g l p bx < 100000) : l + 1 < g.lines := by
  rw [gapBehind] at h
  split_ifs at h with hl
  · exact of_decide_eq_true (Bool.and_eq_true_iff.mp hl).1
  · exact absurd h (lt_irrefl _)

theorem mem_tagged {a : TableBox} (ha : g.Holds l p a) :
    a.toTaggedBox ∈ g.contents.map TableBox.toTaggedBox :=
  Multiset.mem_map_of_mem _ (CellGrid.mem_contents.mpr ⟨l, p, ha⟩)

theorem tagged_of_unplaced {s t : Multiset TableBox}
    (h : s.map TableBox.unplaced = t.map TableBox.unplaced) :
    s.map TableBox.toTaggedBox = t.map TableBox.toTaggedBox := by
  have htagged := congrArg (Multiset.map TableBox.toTaggedBox) h
  rwa [Multiset.map_map, Multiset.map_map] at htagged

/-- A line of the full grid has a box, so that it is near. -/
theorem exists_mem_line (hg : g.Full) (hl : l < g.lines) :
    ∃ a ∈ g.line l, a.toTaggedBox ∈ g.contents.map TableBox.toTaggedBox := by
  obtain ⟨p, hp, hne⟩ := hg.line l hl
  obtain ⟨a, ha⟩ := List.exists_mem_of_ne_nil _ hne
  exact ⟨a, CellGrid.mem_line.mpr ⟨p, hp, ha⟩, mem_tagged ⟨hl, hp, ha⟩⟩

theorem gapBefore_lt (hg : g.Full) (hl : l < g.lines)
    (hgaps : SmallGaps lo hi (g.contents.map TableBox.toTaggedBox))
    (hbx : bx.toTaggedBox ∈ g.contents.map TableBox.toTaggedBox)
    (hf : settledBefore g l p = false) : gapBefore lo hi g l p bx < 100000 := by
  have hpos : 0 < l := by
    rw [settledBefore, Bool.or_eq_false_iff] at hf
    exact Nat.pos_of_ne_zero (of_decide_eq_false hf.2)
  obtain ⟨a, ha, hmem⟩ := exists_mem_line hg (show l - 1 < g.lines by omega)
  rw [gapBefore, if_pos (by simp [hf, hpos])]
  exact leastGap_lt (List.mem_map_of_mem ha) (hgaps _ hbx _ hmem)

theorem gapBehind_lt (hg : g.Full)
    (hgaps : SmallGaps lo hi (g.contents.map TableBox.toTaggedBox))
    (hbx : bx.toTaggedBox ∈ g.contents.map TableBox.toTaggedBox)
    (hf : settledBehind g l p = false) : gapBehind lo hi g l p bx < 100000 := by
  have hl : l + 1 < g.lines := by
    rw [settledBehind, Bool.or_eq_false_iff] at hf
    exact not_le.mp (of_decide_eq_false hf.2)
  obtain ⟨a, ha, hmem⟩ := exists_mem_line hg hl
  rw [gapBehind, if_pos (by simp [hf, hl])]
  exact leastGap_lt (List.mem_map_of_mem ha) (hgaps _ hmem _ hbx)

theorem loneMove_spec (hg : g.Full) (hl : l < g.lines) (hp : p < g.across) (hne : g.cell l p ≠ [])
    (hlone : g.Lone l p) (hgaps : SmallGaps lo hi (g.contents.map TableBox.toTaggedBox)) :
    ∃ m, loneMove lo hi g l p = some m ∧ m.Fits g l := by
  rw [loneMove]
  split_ifs with hsettled
  · exact ⟨.keep, rfl, trivial⟩
  · obtain ⟨bx, rest, hcell⟩ := List.exists_cons_of_ne_nil hne
    have hbx := mem_tagged ⟨hl, hp, hcell ▸ List.mem_cons_self⟩
    have hnear : gapBefore lo hi g l p bx < 100000 ∨ gapBehind lo hi g l p bx < 100000 := by
      rw [Bool.and_eq_true, not_and_or, Bool.not_eq_true, Bool.not_eq_true] at hsettled
      exact hsettled.imp (gapBefore_lt hg hl hgaps hbx) (gapBehind_lt hg hgaps hbx)
    rw [hcell]
    change ∃ m, ite _ _ _ = some m ∧ _
    rw [if_pos hnear]
    split_ifs with hlt
    · have hback := lt_of_lt_of_le hlt gapBehind_le
      exact ⟨.back p, rfl, pos_of_gapBefore_lt hback, hp, hne, hlone⟩
    · have hon : gapBehind lo hi g l p bx < 100000 :=
        hnear.elim (lt_of_le_of_lt (not_lt.mp hlt)) id
      exact ⟨.on p, rfl, lt_lines_of_gapBehind_lt hon, hp, hne, hlone⟩

/-- No line of a full grid with small gaps is a failure, and a move has its neighbour. -/
theorem moveOf_spec (hg : g.Full) (hl : l < g.lines)
    (hgaps : SmallGaps lo hi (g.contents.map TableBox.toTaggedBox)) :
    ∃ m, moveOf lo hi g l = some m ∧ m.Fits g l := by
  by_cases htwo : ∃ p q rest, g.filled l = p :: q :: rest
  · obtain ⟨p, q, rest, hfilled⟩ := htwo
    refine ⟨.keep, ?_, trivial⟩
    rw [moveOf, hfilled]
  · push Not at htwo
    obtain ⟨p, hfilled, hp, hne, hlone⟩ := hg.lone hl htwo
    obtain ⟨m, hm, hfits⟩ := loneMove_spec hg hl hp hne hlone hgaps
    refine ⟨m, ?_, hfits⟩
    rw [moveOf, hfilled]
    exact hm

theorem popAt_of_lt {α : Type*} {lines : List α} (h : l < lines.length) :
    popAt lines l = some (lines.eraseIdx l) :=
  if_pos h

/-- Numbers go down by one, and nothing else changes. -/
structure Lessens (lineOf posOf : TableBox → ℕ) (renumber : TableBox → TableBox) : Prop where
  line : ∀ a, lineOf (renumber a) = lineOf a - 1
  position : ∀ a, posOf (renumber a) = posOf a
  unplaced : ∀ a, (renumber a).unplaced = a.unplaced

/-- The loop comes to its end; each turn has a line less before it. -/
theorem relocateFrom_spec (hren : Lessens lineOf posOf renumber) {fuel : ℕ}
    {lines : List (List TableBox)} (hfuel : g.lines - l < fuel) (hg : g.Full)
    (hstep : g.InStep lineOf posOf) (hlines : lines.length = g.lines)
    (hgaps : SmallGaps lo hi (g.contents.map TableBox.toTaggedBox)) :
    ∃ g' lines', relocateFrom lo hi renumber fuel g lines l = some (g', lines') ∧ g'.Full ∧
      g'.InStep lineOf posOf ∧ g'.contents.map TableBox.unplaced =
        g.contents.map TableBox.unplaced ∧ lines'.length = g'.lines ∧ g'.across = g.across := by
  induction fuel generalizing g lines l with
  | zero => exact absurd hfuel (Nat.not_lt_zero _)
  | succ fuel ih =>
      rw [relocateFrom]
      split_ifs with hend
      · exact ⟨g, lines, rfl, hg, hstep, rfl, hlines, rfl⟩
      have hl : l < g.lines := not_le.mp hend
      have hpop : popAt lines l = some (lines.eraseIdx l) := popAt_of_lt (hlines ▸ hl)
      have hlength : (lines.eraseIdx l).length = g.lines - 1 := by
        rw [List.length_eraseIdx_of_lt (hlines ▸ hl), hlines]
      obtain ⟨m, hm, hfits⟩ := moveOf_spec hg hl hgaps
      rw [hm]
      cases m with
      | keep => exact ih (by omega) hg hstep hlines hgaps
      | back p =>
          obtain ⟨hpos, hp, hne, hlone⟩ := hfits
          have hcontents : (g.moveBack renumber l p).contents.map TableBox.unplaced = _ :=
            CellGrid.contents_moveBack hl hpos hp hlone hren.unplaced
          obtain ⟨g', lines', hrun, hfull', hstep', hcontents', hlines', hacross'⟩ :=
            ih (show g.lines - 1 - l < fuel by omega) (hg.moveBack hl hpos hne hlone)
              (hstep.moveBack hl hp hren.line hren.position) hlength
              (tagged_of_unplaced hcontents ▸ hgaps)
          refine ⟨g', lines', ?_, hfull', hstep', hcontents'.trans hcontents, hlines', hacross'⟩
          rw [← hrun]
          exact congrArg (Option.bind · _) hpop
      | on p =>
          obtain ⟨hnext, hp, hne, hlone⟩ := hfits
          have hcontents : (g.moveOn renumber l p).contents.map TableBox.unplaced = _ :=
            CellGrid.contents_moveOn hnext hp hlone hren.unplaced
          obtain ⟨g', lines', hrun, hfull', hstep', hcontents', hlines', hacross'⟩ :=
            ih (show g.lines - 1 - l < fuel by omega) (hg.moveOn hnext hne hlone)
              (hstep.moveOn hnext hren.line hren.position) hlength
              (tagged_of_unplaced hcontents ▸ hgaps)
          refine ⟨g', lines', ?_, hfull', hstep', hcontents'.trans hcontents, hlines', hacross'⟩
          rw [← hrun]
          exact congrArg (Option.bind · _) hpop

theorem relocate_spec (lo hi : TaggedBox → ℚ) (hren : Lessens lineOf posOf renumber)
    {lines : List (List TableBox)} (hg : g.Full) (hstep : g.InStep lineOf posOf)
    (hlines : lines.length = g.lines)
    (hgaps : SmallGaps lo hi (g.contents.map TableBox.toTaggedBox)) :
    ∃ g' lines', relocate lo hi renumber g lines = some (g', lines') ∧ g'.Full ∧
      g'.InStep lineOf posOf ∧ g'.contents.map TableBox.unplaced =
        g.contents.map TableBox.unplaced ∧ lines'.length = g'.lines ∧ g'.across = g.across :=
  relocateFrom_spec hren (Nat.lt_succ_self _) hg hstep hlines hgaps

end Relocate

theorem lessens_lessRn : Lessens TableBox.rn TableBox.cn TableBox.lessRn :=
  ⟨fun _ => rfl, fun _ => rfl, fun _ => rfl⟩

theorem lessens_lessCn : Lessens TableBox.cn TableBox.rn TableBox.lessCn :=
  ⟨fun _ => rfl, fun _ => rfl, fun _ => rfl⟩

section Relocate

variable {boxes : List TaggedBox} {t : Layout}

theorem relocateColumns_spec (ht : t.Holds boxes) (hnear : Compact boxes) :
    ∃ t', relocateColumns t = some t' ∧ t'.Holds boxes := by
  have hfilter {t' : Layout} (ht' : t'.Holds boxes) :
      (some t').filter (fun t => t.cols.length = t.tbl.across) = some t' := by
    rw [Option.filter_some, if_pos (decide_eq_true ht'.cols_length)]
  rw [relocateColumns]
  split_ifs
  · have htagged : t.tbl.swap.contents.map TableBox.toTaggedBox = boxes := by
      rw [CellGrid.contents_swap, ht.tagged]
    obtain ⟨g', cols', hrun, hfull, hstep, hkept, hcols, hacross⟩ :=
      relocate_spec (fun b => b.x0) (fun b => b.x1) lessens_lessCn ht.full.swap ht.inStep.swap
        ht.cols_length (htagged ▸ hnear.across)
    have ht' : Layout.Holds boxes { t with tbl := g'.swap, cols := cols' } := by
      refine ⟨hfull.swap, hstep.swap, ?_, ht.rows_length.trans hacross.symm, hcols⟩
      rw [CellGrid.contents_swap, hkept, CellGrid.contents_swap, ht.contents]
    refine ⟨_, ?_, ht'⟩
    rw [hrun, Option.map_some]
    exact hfilter ht'
  · exact ⟨t, hfilter ht, ht⟩

theorem relocateRows_spec (ht : t.Holds boxes) (hnear : Compact boxes) :
    ∃ t', relocateRows t = some t' ∧ t'.Holds boxes := by
  rw [relocateRows]
  split_ifs
  · obtain ⟨g', rows', hrun, hfull, hstep, hkept, hrows, hacross⟩ :=
      relocate_spec (fun b => b.top) (fun b => b.bottom) lessens_lessRn ht.full ht.inStep
        ht.rows_length (ht.tagged ▸ hnear.down)
    refine ⟨{ t with tbl := g', rows := rows' }, ?_, hfull, hstep, hkept.trans ht.contents, hrows,
      ht.cols_length.trans hacross.symm⟩
    rw [hrun, Option.map_some]
  · exact ⟨t, rfl, ht⟩

end Relocate

/-- Every box keeps a place in the table, and no step of the assembly fails. -/
theorem holds_layTable (S : CmpSort) {boxes : List TaggedBox} (hnear : Compact boxes) :
    ∃ t, layTable S boxes = some t ∧ t.Holds boxes := by
  obtain ⟨t, hfill, ht⟩ := fillTable_spec S boxes
  obtain ⟨t₁, hcols, ht₁⟩ := relocateColumns_spec ht hnear
  obtain ⟨t₂, hrows, ht₂⟩ := relocateRows_spec ht₁ hnear
  refine ⟨t₂, ?_, ht₂⟩
  rw [layTable, hfill, Option.bind_some, hcols, Option.bind_some, hrows]

/-- Coordinates from 0 on and below 100000. -/
theorem compact_of_bounds {boxes : List TaggedBox}
    (h : ∀ b ∈ boxes, b.x0 < 100000 ∧ 0 ≤ b.x1 ∧ b.top < 100000 ∧ 0 ≤ b.bottom) :
    Compact boxes := by
  constructor
  · intro a ha b hb
    exact lt_of_le_of_lt (sub_le_self _ (h b hb).2.1) (h a ha).1
  · intro a ha b hb
    exact lt_of_le_of_lt (sub_le_self _ (h b hb).2.2.2) (h a ha).2.2.1

/-- Two boxes side by side, with one caption. -/
def captioned : List TaggedBox :=
  let box (x y : ℚ) (text : List Char) : TaggedBox :=
    { pageNumber := 1, x0 := x, x1 := x + 20, top := y, bottom := y + 10, text, layout := none
      colId := none, row := none, column := none, header := none, spanning := none }
  [box 0 0 ['图', '1', ':', ' '], box 0 20 ['a', 'b'], box 30 20 ['c', 'd']]

theorem compact_captioned : Compact captioned := by
  refine compact_of_bounds ?_
  norm_num [captioned]

/-- A stable sort. -/
def CmpSort.stable : CmpSort :=
  ⟨fun order arr => arr.mergeSort fun a b => order a b ≤ 0, fun _ arr => List.mergeSort_perm arr _⟩

/-- After the relocation no row and no column is empty, and every box lies in the cell of its
numbers. -/
theorem layTable_placed (S : CmpSort) {boxes : List TaggedBox} (hnear : Compact boxes) :
    ∃ t, layTable S boxes = some t ∧
      (∀ i < t.tbl.lines, ∃ j < t.tbl.across, t.tbl.cell i j ≠ []) ∧
      (∀ j < t.tbl.across, ∃ i < t.tbl.lines, t.tbl.cell i j ≠ []) ∧
      (∀ i j b, t.tbl.Holds i j b → b.rn = i ∧ b.cn = j) ∧
      t.tbl.contents.map TableBox.toTaggedBox = boxes := by
  obtain ⟨t, hlay, ht⟩ := holds_layTable S hnear
  exact ⟨t, hlay, ht.full.line, ht.full.position, ht.inStep, ht.tagged⟩

theorem layTable_placed_captioned :
    ∃ t, layTable .stable captioned = some t ∧
      (∀ i < t.tbl.lines, ∃ j < t.tbl.across, t.tbl.cell i j ≠ []) ∧
      (∀ j < t.tbl.across, ∃ i < t.tbl.lines, t.tbl.cell i j ≠ []) ∧
      (∀ i j b, t.tbl.Holds i j b → b.rn = i ∧ b.cn = j) ∧
      t.tbl.contents.map TableBox.toTaggedBox = captioned :=
  layTable_placed .stable compact_captioned

end RagflowMineru.Deepdoc
