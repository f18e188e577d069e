import Mathlib.Algebra.Order.Group.Nat
import Mathlib.Data.List.Basic

/-!
# Filling a grid row by row

Items with a width and a height are put into a grid row by row.  In its row an
item takes the next column that no earlier row holds, and holds its columns in
as many rows as it is high.  How a row is filled depends on what is held at it
and below it only, so rows that stand below the same columns are filled alike,
wherever they are.
-/

namespace RagflowMineru.Library.GridFill

/-- The columns from `left` to `right` are held in the rows from `top` to `bottom`, both without
their upper ends. -/
structure Mark where
  top : ℕ
  bottom : ℕ
  left : ℕ
  right : ℕ
  deriving DecidableEq

/-- Column `c` is held in row `i`. -/
def holds (marks : List Mark) (i c : ℕ) : Bool :=
  marks.any fun m => m.top ≤ i && i < m.bottom && (m.left ≤ c && c < m.right)

/-- The end of the last column that is held in some row. -/
def extent (marks : List Mark) : ℕ :=
  marks.foldr (fun m => max m.right) 0

/-- The end of the last column that is held in row `i`. -/
def widthAt (marks : List Mark) (i : ℕ) : ℕ :=
  extent (marks.filter fun m => m.top ≤ i && i < m.bottom && m.left < m.right)

def advance (marks : List Mark) (i : ℕ) : ℕ → ℕ → ℕ
  | 0, c => c
  | fuel + 1, c => if holds marks i c then advance marks i fuel (c + 1) else c

/-- The next column from `c` on that is not held in row `i`. -/
def nextFree (marks : List Mark) (i c : ℕ) : ℕ :=
  advance marks i (extent marks - c) c

variable {α : Type*} (wide tall : α → ℕ)

/-- Row `i` is filled from column `c` on. -/
def fillRow (i : ℕ) : List Mark → ℕ → List α → List Mark
  | marks, _, [] => marks
  | marks, c, a :: rest =>
    let left := nextFree marks i c
    fillRow i (marks ++ [⟨i, i + tall a, left, left + wide a⟩]) (left + wide a) rest

/-- The rows from row `i` on are filled. -/
def fillRows (i : ℕ) (marks : List Mark) : List (List α) → List Mark
  | [] => marks
  | row :: rest => fillRows (i + 1) (fillRow wide tall i marks 0 row) rest

/-- The widths of the rows, each of them when it has been filled. -/
def rowWidths (i : ℕ) (marks : List Mark) : List (List α) → List ℕ
  | [] => []
  | row :: rest =>
    let marks := fillRow wide tall i marks 0 row
    widthAt marks i :: rowWidths (i + 1) marks rest

/-! ## What is held -/

variable {marks marks' : List Mark} {m : Mark} {i j c : ℕ}

theorem holds_iff : holds marks i c ↔
    ∃ m ∈ marks, m.top ≤ i ∧ i < m.bottom ∧ m.left ≤ c ∧ c < m.right := by
  simp [holds, and_assoc]

@[simp] theorem holds_nil : holds [] i c = false :=
  rfl

theorem holds_append : holds (marks ++ marks') i c = (holds marks i c || holds marks' i c) := by
  simp [holds]

theorem le_extent (h : m ∈ marks) : m.right ≤ extent marks := by
  induction marks with
  | nil => simp at h
  | cons a rest ih =>
    simp only [extent, List.foldr_cons]
    rcases List.mem_cons.mp h with rfl | h
    · exact le_max_left _ _
    · exact le_max_of_le_right (ih h)

theorem extent_le_iff {w : ℕ} : extent marks ≤ w ↔ ∀ m ∈ marks, m.right ≤ w := by
  refine ⟨fun h m hm => (le_extent hm).trans h, fun h => ?_⟩
  induction marks with
  | nil => exact Nat.zero_le _
  | cons a rest ih =>
    exact max_le (h a (by simp)) (ih fun m hm => h m (by simp [hm]))

theorem lt_extent_of_holds (h : holds marks i c) : c < extent marks := by
  obtain ⟨m, hm, -, -, -, hlt⟩ := holds_iff.mp h
  exact hlt.trans_le (le_extent hm)

/-- A row is as wide as the columns that are held in it. -/
theorem widthAt_le_iff {w : ℕ} : widthAt marks i ≤ w ↔ ∀ c, holds marks i c → c < w := by
  simp only [widthAt, extent_le_iff, List.mem_filter, Bool.and_eq_true, decide_eq_true_eq]
  constructor
  · intro h c hc
    obtain ⟨m, hm, htop, hbottom, hleft, hright⟩ := holds_iff.mp hc
    exact hright.trans_le (h m ⟨hm, ⟨htop, hbottom⟩, by omega⟩)
  · rintro h m ⟨hm, ⟨htop, hbottom⟩, hlt⟩
    have := h (m.right - 1) (holds_iff.mpr ⟨m, hm, htop, hbottom, by omega, by omega⟩)
    omega

theorem widthAt_congr (h : ∀ c, holds marks i c = holds marks' j c) :
    widthAt marks i = widthAt marks' j := by
  apply le_antisymm
  · exact widthAt_le_iff.mpr fun c hc => widthAt_le_iff.mp le_rfl c (by rwa [← h c])
  · exact widthAt_le_iff.mpr fun c hc => widthAt_le_iff.mp le_rfl c (by rwa [h c])

theorem widthAt_le_extent : widthAt marks i ≤ extent marks :=
  widthAt_le_iff.mpr fun _ hc => lt_extent_of_holds hc

/-! ## The next free column -/

theorem le_advance (fuel : ℕ) : c ≤ advance marks i fuel c := by
  induction fuel generalizing c with
  | zero => exact le_rfl
  | succ fuel ih =>
    simp only [advance]
    split
    · exact (Nat.le_succ c).trans ih
    · exact le_rfl

theorem le_nextFree : c ≤ nextFree marks i c :=
  le_advance _

theorem holds_of_lt_advance {fuel d : ℕ} (hle : c ≤ d) (hlt : d < advance marks i fuel c) :
    holds marks i d := by
  induction fuel generalizing c with
  | zero =>
    simp only [advance] at hlt
    omega
  | succ fuel ih =>
    simp only [advance] at hlt
    split at hlt
    · next hc =>
      rcases hle.eq_or_lt with rfl | hle
      · exact hc
      · exact ih hle hlt
    · omega

theorem not_holds_advance {fuel : ℕ} (h : extent marks ≤ c + fuel) :
    holds marks i (advance marks i fuel c) = false := by
  induction fuel generalizing c with
  | zero =>
    rw [Bool.eq_false_iff]
    intro hc
    have := lt_extent_of_holds hc
    simp only [advance] at this
    omega
  | succ fuel ih =>
    simp only [advance]
    split
    · exact ih (by omega)
    · next hc => simpa using hc

theorem not_holds_nextFree : holds marks i (nextFree marks i c) = false :=
  not_holds_advance (by omega)

/-- The next free column is known by what is held in the row. -/
theorem nextFree_congr (h : ∀ c, holds marks i c = holds marks' j c) :
    nextFree marks i c = nextFree marks' j c := by
  have key : ∀ {ms ms' : List Mark} {i j : ℕ}, (∀ c, holds ms i c = holds ms' j c) →
      ¬ nextFree ms i c < nextFree ms' j c := by
    intro ms ms' i j h hlt
    have hheld := holds_of_lt_advance le_nextFree hlt
    rw [← h, not_holds_nextFree] at hheld
    exact Bool.false_ne_true hheld
  exact le_antisymm (not_lt.mp (key fun c => (h c).symm)) (not_lt.mp (key h))

/-! ## Rows that stand below the same columns -/

/-- From row `i` on the first marks hold what the others hold from row `j` on. -/
def AgreeFrom (i j : ℕ) (marks marks' : List Mark) : Prop :=
  ∀ r c, holds marks (i + r) c = holds marks' (j + r) c

theorem AgreeFrom.at_row (h : AgreeFrom i j marks marks') (c : ℕ) :
    holds marks i c = holds marks' j c :=
  h 0 c

theorem AgreeFrom.refl : AgreeFrom i i marks marks :=
  fun _ _ => rfl

theorem AgreeFrom.trans {k : ℕ} {marks'' : List Mark} (h : AgreeFrom i j marks marks')
    (h' : AgreeFrom j k marks' marks'') : AgreeFrom i k marks marks'' :=
  fun r c => (h r c).trans (h' r c)

theorem AgreeFrom.symm (h : AgreeFrom i j marks marks') : AgreeFrom j i marks' marks :=
  fun r c => (h r c).symm

theorem AgreeFrom.succ (h : AgreeFrom i j marks marks') :
    AgreeFrom (i + 1) (j + 1) marks marks' := by
  intro r c
  have := h (r + 1) c
  rwa [← add_assoc, ← add_assoc, add_right_comm i, add_right_comm j] at this

theorem AgreeFrom.append (h : AgreeFrom i j marks marks') (t l r : ℕ) :
    AgreeFrom i j (marks ++ [⟨i, i + t, l, r⟩]) (marks' ++ [⟨j, j + t, l, r⟩]) := by
  intro d c
  rw [holds_append, holds_append, h d c]
  simp [holds]

theorem AgreeFrom.fillRow (h : AgreeFrom i j marks marks') (row : List α) :
    AgreeFrom i j (fillRow wide tall i marks c row) (fillRow wide tall j marks' c row) := by
  induction row generalizing marks marks' c with
  | nil => exact h
  | cons a rest ih =>
    simp only [GridFill.fillRow]
    rw [nextFree_congr h.at_row]
    exact ih (h.append _ _ _)

theorem AgreeFrom.rowWidths_eq (h : AgreeFrom i j marks marks') (rows : List (List α)) :
    rowWidths wide tall i marks rows = rowWidths wide tall j marks' rows := by
  induction rows generalizing i j marks marks' with
  | nil => rfl
  | cons row rest ih =>
    have hrow := h.fillRow (c := 0) wide tall row
    simp only [rowWidths]
    rw [widthAt_congr hrow.at_row, ih hrow.succ]

/-- A mark that ends with its row is not noticed below. -/
theorem agreeFrom_append_of_le {b l r : ℕ} (h : b ≤ j) :
    AgreeFrom j j marks (marks ++ [⟨i, b, l, r⟩]) := by
  intro d c
  have : ¬ (j + d < b) := by omega
  simp [holds, this]

/-- A row of items of height one is not noticed below. -/
theorem agreeFrom_fillRow_of_flat {row : List α} (h : ∀ a ∈ row, tall a ≤ 1) :
    AgreeFrom (i + 1) (i + 1) marks (fillRow wide tall i marks c row) := by
  induction row generalizing marks c with
  | nil => exact AgreeFrom.refl
  | cons a rest ih =>
    simp only [fillRow]
    have ha := h a (by simp)
    exact (agreeFrom_append_of_le (by omega)).trans (ih fun a ha => h a (by simp [ha]))

/-! ## All rows -/

theorem fillRows_append (rows rest : List (List α)) :
    fillRows wide tall i marks (rows ++ rest) =
      fillRows wide tall (i + rows.length) (fillRows wide tall i marks rows) rest := by
  induction rows generalizing i marks with
  | nil => rfl
  | cons row rows ih =>
    simp only [List.cons_append, fillRows, ih, List.length_cons]
    rw [add_right_comm, add_assoc]

theorem length_rowWidths (rows : List (List α)) :
    (rowWidths wide tall i marks rows).length = rows.length := by
  induction rows generalizing i marks with
  | nil => rfl
  | cons row rows ih => simp [rowWidths, ih]

theorem rowWidths_append (rows rest : List (List α)) :
    rowWidths wide tall i marks (rows ++ rest) =
      rowWidths wide tall i marks rows ++
        rowWidths wide tall (i + rows.length) (fillRows wide tall i marks rows) rest := by
  induction rows generalizing i marks with
  | nil => rfl
  | cons row rows ih =>
    simp only [List.cons_append, rowWidths, fillRows, ih, List.length_cons]
    rw [add_right_comm, add_assoc]

theorem mem_fillRow (row : List α) (h : m ∈ marks) : m ∈ fillRow wide tall i marks c row := by
  induction row generalizing marks c with
  | nil => exact h
  | cons a row ih => exact ih (List.mem_append_left _ h)

theorem mem_fillRows (rows : List (List α)) (h : m ∈ marks) :
    m ∈ fillRows wide tall i marks rows := by
  induction rows generalizing i marks with
  | nil => exact h
  | cons row rows ih => exact ih (mem_fillRow wide tall row h)

/-- No row is wider than the grid. -/
theorem rowWidths_le_extent {rows : List (List α)} {w : ℕ}
    (h : w ∈ rowWidths wide tall i marks rows) :
    w ≤ extent (fillRows wide tall i marks rows) := by
  induction rows generalizing i marks with
  | nil => simp [rowWidths] at h
  | cons row rows ih =>
    simp only [rowWidths, List.mem_cons] at h
    simp only [fillRows]
    rcases h with rfl | h
    · refine widthAt_le_extent.trans (extent_le_iff.mpr fun m hm => ?_)
      exact le_extent (mem_fillRows wide tall rows hm)
    · exact ih h

/-- A row is at most as much wider as its last item has become. -/
theorem widthAt_fillRow_le (row : List α) {a a' : α} {d : ℕ} (hwide : wide a' ≤ wide a + d)
    (htall : 0 < tall a) (hpos : 0 < wide a) :
    widthAt (fillRow wide tall i marks c (row ++ [a'])) i ≤
      widthAt (fillRow wide tall i marks c (row ++ [a])) i + d := by
  have key : ∀ (marks : List Mark) (c : ℕ), widthAt (fillRow wide tall i marks c [a']) i ≤
      widthAt (fillRow wide tall i marks c [a]) i + d := by
    intro marks c
    have hold := widthAt_le_iff.mp (le_refl (widthAt (fillRow wide tall i marks c [a]) i))
    simp only [fillRow, holds_append, Bool.or_eq_true] at hold ⊢
    -- the last column of the item as it was
    have hlast := hold (nextFree marks i c + wide a - 1) (Or.inr (by
      simp [holds]
      omega))
    refine widthAt_le_iff.mpr fun d' hd' => ?_
    rw [holds_append, Bool.or_eq_true] at hd'
    rcases hd' with hd' | hd'
    · have := hold d' (Or.inl hd')
      omega
    · simp [holds] at hd'
      omega
  induction row generalizing marks c with
  | nil => exact key marks c
  | cons b row ih => exact ih

/-- The items of the rows from row `i` on end with row `n` or before. -/
def EndBy (n i : ℕ) (rows : List (List α)) : Prop :=
  ∀ k row, rows[k]? = some row → ∀ a ∈ row, i + k + tall a ≤ n

variable {tall} in
theorem EndBy.congr {n : ℕ} {rows rows' : List (List α)} (h : EndBy tall n i rows)
    (heq : rows'.map (List.map tall) = rows.map (List.map tall)) : EndBy tall n i rows' := by
  intro k row' hrow' a ha
  have hk := congrArg (fun l => l[k]?) heq
  simp only [List.getElem?_map, hrow', Option.map_some] at hk
  obtain ⟨row, hrow, hmap⟩ := Option.map_eq_some_iff.mp hk.symm
  have hmem : tall a ∈ row.map tall := hmap ▸ List.mem_map_of_mem ha
  obtain ⟨b, hb, hab⟩ := List.mem_map.mp hmem
  exact hab ▸ h k row hrow b hb

theorem bottom_le_fillRow {n : ℕ} {row : List α} (hmarks : ∀ m ∈ marks, m.bottom ≤ n)
    (ha : ∀ a ∈ row, i + tall a ≤ n) : ∀ m ∈ fillRow wide tall i marks c row, m.bottom ≤ n := by
  induction row generalizing marks c with
  | nil => exact hmarks
  | cons a row ih =>
    refine ih (fun m hm => ?_) (fun b hb => ha b (by simp [hb]))
    rcases List.mem_append.mp hm with hm | hm
    · exact hmarks m hm
    · obtain rfl : m = _ := List.mem_singleton.mp hm
      exact ha a (by simp)

variable {tall} in
theorem EndBy.bottom_le {n : ℕ} {rows : List (List α)} (h : EndBy tall n i rows)
    (hmarks : ∀ m ∈ marks, m.bottom ≤ n) : ∀ m ∈ fillRows wide tall i marks rows, m.bottom ≤ n := by
  induction rows generalizing i marks with
  | nil => exact hmarks
  | cons row rows ih =>
    refine ih (fun k row' hk a ha => ?_) (bottom_le_fillRow wide tall hmarks fun a ha => ?_)
    · have := h (k + 1) row' (by simpa using hk) a ha
      omega
    · simpa using h 0 row (by simp) a ha

theorem agreeFrom_of_bottom_le {n n' : ℕ} (h : ∀ m ∈ marks, m.bottom ≤ n)
    (h' : ∀ m ∈ marks', m.bottom ≤ n') : AgreeFrom n n' marks marks' := by
  have key : ∀ {ms : List Mark} {n : ℕ}, (∀ m ∈ ms, m.bottom ≤ n) → ∀ r c,
      holds ms (n + r) c = false := by
    intro ms n h r c
    rw [Bool.eq_false_iff]
    intro hc
    obtain ⟨m, hm, -, hlt, -⟩ := holds_iff.mp hc
    have := h m hm
    omega
  intro r c
  rw [key h, key h']

/-- Rows that stand below rows none of whose items reaches them are filled alike. -/
theorem rowWidths_append_of_endBy {above above' : List (List α)}
    (h : EndBy tall above.length 0 above) (h' : EndBy tall above'.length 0 above')
    (rows : List (List α)) :
    rowWidths wide tall 0 [] (above ++ rows) = rowWidths wide tall 0 [] above ++
      (rowWidths wide tall 0 [] (above' ++ rows)).drop above'.length := by
  have hnone : ∀ {n : ℕ}, ∀ m ∈ ([] : List Mark), m.bottom ≤ n := by simp
  have hagree := agreeFrom_of_bottom_le (h.bottom_le wide hnone) (h'.bottom_le wide hnone)
  rw [rowWidths_append, rowWidths_append]
  rw [List.drop_left' (length_rowWidths wide tall above'), zero_add, zero_add]
  rw [hagree.rowWidths_eq]

/-- The width of a row below others. -/
def widthBelow (above : List (List α)) (row : List α) : ℕ :=
  widthAt (fillRow wide tall above.length (fillRows wide tall 0 [] above) 0 row) above.length

theorem getElem?_rowWidths (rows : List (List α)) (k : ℕ) :
    (rowWidths wide tall 0 [] rows)[k]? =
      rows[k]?.map (widthBelow wide tall (rows.take k)) := by
  by_cases hk : k < rows.length
  · obtain ⟨row, rest, hdrop⟩ := List.exists_cons_of_ne_nil (List.drop_eq_nil_iff.not.mpr hk.not_ge)
    have hlen : (rows.take k).length = k := List.length_take_of_le hk.le
    have hrow : rows[k]? = some row := by
      rw [← List.head?_drop, hdrop, List.head?_cons]
    nth_rewrite 1 [← List.take_append_drop k rows]
    rw [hdrop, rowWidths_append, hrow]
    rw [List.getElem?_append_right (by rw [length_rowWidths, hlen])]
    simp [length_rowWidths, hlen, rowWidths, widthBelow]
  · have hlen : (rowWidths wide tall 0 [] rows).length ≤ k := by
      rw [length_rowWidths]
      omega
    rw [List.getElem?_eq_none hlen, List.getElem?_eq_none (by omega), Option.map_none]

variable [DecidableEq α]

/-- The items of two rows from the first place on at which they differ. -/
def changed (row row' : List α) : List (α × α) :=
  (row.zip row').dropWhile fun p => p.1 = p.2

/-- Two rows that differ in items of height one only are not told apart below. -/
theorem AgreeFrom.fillRow_changed {row row' : List α} (h : AgreeFrom i i marks marks')
    (htall : row'.map tall = row.map tall) (hflat : ∀ p ∈ changed row row', tall p.1 ≤ 1) :
    AgreeFrom (i + 1) (i + 1) (GridFill.fillRow wide tall i marks c row)
      (GridFill.fillRow wide tall i marks' c row') := by
  induction row generalizing row' marks marks' c with
  | nil =>
    obtain rfl : row' = [] := by simpa using htall
    exact h.succ
  | cons a rest ih =>
    obtain ⟨a', rest', rfl⟩ : ∃ a' rest', row' = a' :: rest' := by
      apply List.exists_cons_of_ne_nil
      rintro rfl
      simp at htall
    simp only [List.map_cons, List.cons.injEq] at htall
    by_cases heq : a = a'
    · subst a'
      simp only [GridFill.fillRow]
      rw [nextFree_congr h.at_row]
      apply ih (h.append _ _ _) htall.2
      simpa [changed] using hflat
    · -- from here on the items of both rows are one row high
      have hzip : changed (a :: rest) (a' :: rest') = (a, a') :: rest.zip rest' := by
        simp [changed, heq]
      have hlen : rest.length ≤ rest'.length := by
        simpa using (congrArg List.length htall.2).ge
      have hrow : ∀ b ∈ a :: rest, tall b ≤ 1 := by
        intro b hb
        rw [hzip] at hflat
        rcases List.mem_cons.mp hb with rfl | hb
        · exact hflat (b, a') (by simp)
        · rw [← List.map_fst_zip hlen] at hb
          obtain ⟨p, hp, rfl⟩ := List.mem_map.mp hb
          exact hflat p (by simp [hp])
      have hrow' : ∀ b ∈ a' :: rest', tall b ≤ 1 := by
        intro b hb
        have hmem : tall b ∈ (a :: rest).map tall := by
          rw [List.map_cons, ← htall.1, ← htall.2, ← List.map_cons]
          exact List.mem_map_of_mem hb
        obtain ⟨d, hd, heq⟩ := List.mem_map.mp hmem
        exact heq ▸ hrow d hd
      exact ((agreeFrom_fillRow_of_flat wide tall hrow).symm.trans h.succ).trans
        (agreeFrom_fillRow_of_flat wide tall hrow')

/-- `rows'` comes from `rows` by changes that the rows below do not notice: items keep their
heights, and where a row other than the last one changes, the items from the first change on are
one row high. -/
structure FlatChange (rows rows' : List (List α)) : Prop where
  map_tall : rows'.map (List.map tall) = rows.map (List.map tall)
  flat : ∀ k row row', k + 1 < rows.length → rows[k]? = some row → rows'[k]? = some row' →
    ∀ p ∈ changed row row', tall p.1 ≤ 1

variable {tall} in
theorem FlatChange.length_eq {rows rows' : List (List α)} (h : FlatChange tall rows rows') :
    rows'.length = rows.length := by
  simpa using congrArg List.length h.map_tall

variable {tall} in
/-- What stands above a row holds the same columns in it after the changes as before. -/
theorem FlatChange.agreeFrom {rows rows' : List (List α)} (h : FlatChange tall rows rows') {k : ℕ}
    (hk : k < rows.length) : AgreeFrom k k (fillRows wide tall 0 [] (rows.take k))
      (fillRows wide tall 0 [] (rows'.take k)) := by
  induction k with
  | zero => exact AgreeFrom.refl
  | succ k ih =>
    have hlen := h.length_eq
    have hrow := List.getElem?_eq_getElem (show k < rows.length by omega)
    have hrow' := List.getElem?_eq_getElem (show k < rows'.length by omega)
    have htall : (rows'[k]).map tall = (rows[k]).map tall := by
      have := congrArg (fun l => l[k]?) h.map_tall
      simpa [hrow, hrow'] using this
    rw [← List.take_append_getElem (show k < rows.length by omega),
      ← List.take_append_getElem (show k < rows'.length by omega)]
    rw [fillRows_append, fillRows_append]
    simp only [List.length_take, fillRows, zero_add]
    rw [min_eq_left (by omega), min_eq_left (by omega)]
    exact (ih (by omega)).fillRow_changed wide tall htall (h.flat k _ _ hk hrow hrow')

variable {tall} in
/-- Every changed row is as wide as below the rows as they were. -/
theorem FlatChange.getElem?_rowWidths {rows rows' : List (List α)}
    (h : FlatChange tall rows rows') (k : ℕ) :
    (rowWidths wide tall 0 [] rows')[k]? =
      rows'[k]?.map (widthBelow wide tall (rows.take k)) := by
  rw [GridFill.getElem?_rowWidths]
  by_cases hk : k < rows.length
  · have hlen := h.length_eq
    congr 1
    funext row
    have hagree := ((h.agreeFrom wide hk).fillRow (c := 0) wide tall row).at_row
    simp only [widthBelow, List.length_take_of_le hk.le,
      List.length_take_of_le (show k ≤ rows'.length by omega)]
    exact (widthAt_congr hagree).symm
  · rw [List.getElem?_eq_none (by rw [h.length_eq]; omega)]
    rfl

end RagflowMineru.Library.GridFill
