import Mathlib.Data.List.Range
import Mathlib.Data.List.TakeWhile

/-!
# Tilings of a grid and the tables that they are written as

A tiling covers a grid with rectangles.  A table is written row by row: a row
lists the rectangles that begin in it, each only with its spans.  The reader puts
each rectangle at the first free place of its row, and from the rows of a tiling it
gets the tiling back.
-/

namespace RagflowMineru.Library

/-- A rectangle of the grid and what is in it. -/
structure Cell (δ : Type*) where
  top : ℕ
  left : ℕ
  height : ℕ
  width : ℕ
  content : δ
  deriving DecidableEq

/-- A rectangle as a row lists it. -/
structure Td (δ : Type*) where
  rowspan : ℕ
  colspan : ℕ
  content : δ
  deriving DecidableEq

variable {δ δ' : Type*}

namespace Cell

def Covers (c : Cell δ) (i j : ℕ) : Prop :=
  (c.top ≤ i ∧ i < c.top + c.height) ∧ c.left ≤ j ∧ j < c.left + c.width

instance (c : Cell δ) (i j : ℕ) : Decidable (c.Covers i j) := inferInstanceAs (Decidable (_ ∧ _))

def map (f : δ → δ') (c : Cell δ) : Cell δ' := ⟨c.top, c.left, c.height, c.width, f c.content⟩

def td (c : Cell δ) : Td δ := ⟨c.height, c.width, c.content⟩

end Cell

/-- A tiling of a grid, with the rectangle of each place. -/
structure Tiling (rows cols : ℕ) (δ : Type*) where
  cellAt : ℕ → ℕ → Cell δ
  covers : ∀ i < rows, ∀ j < cols, (cellAt i j).Covers i j
  inside : ∀ i < rows, ∀ j < cols, (cellAt i j).top + (cellAt i j).height ≤ rows ∧
    (cellAt i j).left + (cellAt i j).width ≤ cols
  same : ∀ i < rows, ∀ j < cols, ∀ i' j', (cellAt i j).Covers i' j' →
    cellAt i' j' = cellAt i j

/-! ## Reading a table -/

/-- What has been laid out of a table. -/
structure Layout (δ : Type*) where
  width : ℕ := 0
  height : ℕ := 0
  cells : List (Cell δ) := []
  deriving DecidableEq

namespace Layout

def Taken (l : Layout δ) (i j : ℕ) : Prop := ∃ c ∈ l.cells, c.Covers i j

instance (l : Layout δ) (i j : ℕ) : Decidable (l.Taken i j) :=
  inferInstanceAs (Decidable (∃ c ∈ _, _))

/-- The first column from `x` on that is free in a row, or the first behind the table. -/
def nextFree (l : Layout δ) (y x : ℕ) : ℕ :=
  x + ((List.range' x (l.width - x)).takeWhile (l.Taken y ·)).length

/-- Put a rectangle into row `y`, from column `x` on, and go behind it. -/
def place (y : ℕ) (s : Layout δ × ℕ) (td : Td δ) : Layout δ × ℕ :=
  let (l, x) := s
  let x := l.nextFree y x
  ({ width := max l.width (x + td.colspan)
     height := max l.height (y + td.rowspan)
     cells := l.cells ++ [⟨y, x, td.rowspan, td.colspan, td.content⟩] }, x + td.colspan)

def placeRow (l : Layout δ) (y : ℕ) (tds : List (Td δ)) : Layout δ :=
  (tds.foldl (place y) ({ l with height := max l.height (y + 1) }, 0)).1

end Layout

/-- The table that is read from its rows. -/
def formTable (rows : List (List (Td δ))) : Layout δ :=
  rows.zipIdx.foldl (fun l row => l.placeRow row.2 row.1) {}

/-! ## Runs -/

/-- A run of places that satisfy `p`. -/
theorem length_takeWhile_range' {p : ℕ → Bool} {a k n : ℕ} (hrun : ∀ i, a ≤ i → i < a + k → p i)
    (hk : k ≤ n) (hstop : k < n → ¬ p (a + k)) :
    ((List.range' a n).takeWhile p).length = k := by
  induction k generalizing a n with
  | zero =>
      cases n with
      | zero => rfl
      | succ n =>
          have hfirst : ¬ p a := hstop (Nat.succ_pos n)
          rw [List.range'_succ, List.takeWhile_cons_of_neg hfirst, List.length_nil]
  | succ k ih =>
      obtain ⟨n, rfl⟩ : ∃ m, n = m + 1 := ⟨n - 1, by omega⟩
      rw [List.range'_succ, List.takeWhile_cons_of_pos (hrun a le_rfl (by omega)),
        List.length_cons, ih (fun i hi hlt => hrun i (by omega) (by omega)) (by omega)]
      intro hlt
      have hnot := hstop (by omega)
      rwa [show a + 1 + k = a + (k + 1) by omega]

namespace Layout

theorem nextFree_eq {l : Layout δ} {y x j : ℕ} (hx : x ≤ j)
    (htaken : ∀ i, x ≤ i → i < j → l.Taken y i) (hwidth : j ≤ l.width ∨ x = j)
    (hfree : ¬ l.Taken y j) : l.nextFree y x = j := by
  have hlength : ((List.range' x (l.width - x)).takeWhile (l.Taken y ·)).length = j - x := by
    refine length_takeWhile_range' (fun i hi hlt => decide_eq_true (htaken i hi (by omega)))
      (by omega) fun _ => ?_
    rw [decide_eq_true_eq, show x + (j - x) = j by omega]
    exact hfree
  rw [nextFree, hlength]
  omega

end Layout

namespace Tiling

variable {rows cols : ℕ} (t : Tiling rows cols δ)

/-- A place where a rectangle begins. -/
def Corner (i j : ℕ) : Prop := (t.cellAt i j).top = i ∧ (t.cellAt i j).left = j

instance (i j : ℕ) : Decidable (t.Corner i j) := inferInstanceAs (Decidable (_ ∧ _))

/-- The columns below `n` in which a rectangle begins in a row. -/
def corners (i n : ℕ) : List ℕ := (List.range n).filter (t.Corner i ·)

/-- The rectangles that begin in a row. -/
def row (i : ℕ) : List (Cell δ) := (t.corners i cols).map (t.cellAt i)

def cells : List (Cell δ) := (List.range rows).flatMap t.row

/-- The rows of the tiling as they are written. -/
def tds : List (List (Td δ)) := (List.range rows).map fun i => (t.row i).map Cell.td

def map (f : δ → δ') : Tiling rows cols δ' where
  cellAt i j := (t.cellAt i j).map f
  covers := t.covers
  inside := t.inside
  same i hi j hj i' j' h := congrArg (Cell.map f) (t.same i hi j hj i' j' h)

variable {t} {i j i' j' n : ℕ}

theorem mem_corners : j ∈ t.corners i n ↔ j < n ∧ t.Corner i j := by
  rw [corners, List.mem_filter, List.mem_range, decide_eq_true_eq]

theorem corners_succ_of_corner (h : t.Corner i n) :
    t.corners i (n + 1) = t.corners i n ++ [n] := by
  rw [corners, List.range_succ, List.filter_append, List.filter_singleton, decide_eq_true h]
  rfl

theorem corners_succ_of_not (h : ¬ t.Corner i n) : t.corners i (n + 1) = t.corners i n := by
  rw [corners, List.range_succ, List.filter_append, List.filter_singleton, decide_eq_false h]
  exact List.append_nil _

/-- The rectangle of a place begins at a place of the grid. -/
theorem corner_of_lt (hi : i < rows) (hj : j < cols) :
    t.Corner (t.cellAt i j).top (t.cellAt i j).left ∧
      t.cellAt (t.cellAt i j).top (t.cellAt i j).left = t.cellAt i j := by
  obtain ⟨⟨htop, hbottom⟩, hleft, hright⟩ := t.covers i hi j hj
  have hsame := t.same i hi j hj (t.cellAt i j).top (t.cellAt i j).left
    ⟨⟨le_rfl, by omega⟩, le_rfl, by omega⟩
  refine ⟨?_, hsame⟩
  rw [Corner, hsame]
  exact ⟨rfl, rfl⟩

/-- Behind the right side of a rectangle another one has its left side. -/
theorem left_of_right (hi : i < rows) (hj : j < cols)
    (hnext : (t.cellAt i j).left + (t.cellAt i j).width < cols) :
    (t.cellAt i ((t.cellAt i j).left + (t.cellAt i j).width)).left =
      (t.cellAt i j).left + (t.cellAt i j).width := by
  obtain ⟨htops, hleft, hright⟩ := t.covers i hi j hj
  obtain ⟨htops', hleft', hright'⟩ := t.covers i hi _ hnext
  by_contra hne
  have hsame := t.same i hi _ hnext i ((t.cellAt i j).left + (t.cellAt i j).width - 1)
    ⟨htops', by omega, by omega⟩
  have hsame' := t.same i hi j hj i ((t.cellAt i j).left + (t.cellAt i j).width - 1)
    ⟨htops, by omega, by omega⟩
  rw [hsame'] at hsame
  rw [← hsame] at hright'
  omega

/-- Below a rectangle another one has its top. -/
theorem top_of_bottom (hi : i < rows) (hj : j < cols)
    (hnext : (t.cellAt i j).top + (t.cellAt i j).height < rows) :
    (t.cellAt ((t.cellAt i j).top + (t.cellAt i j).height) j).top =
      (t.cellAt i j).top + (t.cellAt i j).height := by
  obtain ⟨⟨htop, hbottom⟩, hlefts⟩ := t.covers i hi j hj
  obtain ⟨⟨htop', hbottom'⟩, hlefts'⟩ := t.covers _ hnext j hj
  by_contra hne
  have hsame := t.same _ hnext j hj ((t.cellAt i j).top + (t.cellAt i j).height - 1) j
    ⟨⟨by omega, by omega⟩, hlefts'⟩
  have hsame' := t.same i hi j hj ((t.cellAt i j).top + (t.cellAt i j).height - 1) j
    ⟨⟨by omega, by omega⟩, hlefts⟩
  rw [hsame'] at hsame
  rw [← hsame] at hbottom'
  omega

/-! ### Reading it back -/

/-- The rectangles that begin above row `y`, or in it to the left of column `n`. -/
def begun (t : Tiling rows cols δ) (y n : ℕ) : List (Cell δ) :=
  (List.range y).flatMap t.row ++ (t.corners y n).map (t.cellAt y)

theorem mem_begun {y : ℕ} {c : Cell δ} : c ∈ t.begun y n ↔
    ∃ i j, (i < y ∧ j < cols ∨ i = y ∧ j < n) ∧ t.Corner i j ∧ t.cellAt i j = c := by
  simp only [begun, List.mem_append, List.mem_flatMap, List.mem_range, row, List.mem_map,
    mem_corners]
  constructor
  · rintro (⟨i, hi, j, ⟨hj, hcorner⟩, hc⟩ | ⟨j, ⟨hj, hcorner⟩, hc⟩)
    · exact ⟨i, j, .inl ⟨hi, hj⟩, hcorner, hc⟩
    · exact ⟨y, j, .inr ⟨rfl, hj⟩, hcorner, hc⟩
  · rintro ⟨i, j, ⟨hi, hj⟩ | ⟨rfl, hj⟩, hcorner, hc⟩
    · exact .inl ⟨i, hi, j, ⟨hj, hcorner⟩, hc⟩
    · exact .inr ⟨j, ⟨hj, hcorner⟩, hc⟩

theorem taken_iff {l : Layout δ} {y : ℕ} (hcells : l.cells = t.begun y n) (hy : y < rows)
    (hn : n ≤ cols) (hj : j < cols) :
    l.Taken y j ↔ (t.cellAt y j).top < y ∨ (t.cellAt y j).left < n := by
  obtain ⟨⟨htop, hbottom⟩, hleft, hright⟩ := t.covers y hy j hj
  constructor
  · rintro ⟨c, hc, hcovers⟩
    rw [hcells] at hc
    obtain ⟨i', j', hplace, ⟨hcorner, hcorner'⟩, rfl⟩ := mem_begun.mp hc
    have hgrid : i' < rows ∧ j' < cols := by omega
    rw [t.same i' hgrid.1 j' hgrid.2 y j hcovers]
    omega
  · intro hbefore
    obtain ⟨hcorner, hsame⟩ := corner_of_lt hy hj (t := t)
    refine ⟨t.cellAt y j, ?_, ⟨htop, hbottom⟩, hleft, hright⟩
    rw [hcells]
    exact mem_begun.mpr ⟨_, _, by omega, hcorner, hsame⟩

/-- The reader after the rectangles that begin in row `y` to the left of column `n`. -/
structure Laid (t : Tiling rows cols δ) (y n : ℕ) (s : Layout δ × ℕ) : Prop where
  cells_eq : s.1.cells = t.begun y n
  width_le : s.1.width ≤ cols
  height_le : s.1.height ≤ rows
  within : ∀ c ∈ s.1.cells, c.left + c.width ≤ s.1.width ∧ c.top + c.height ≤ s.1.height
  behind : s.2 = 0 ∨ ∃ j ∈ t.corners y n, s.2 = j + (t.cellAt y j).width

variable {y : ℕ} {s : Layout δ × ℕ}

theorem Laid.skip (h : t.Laid y n s) (hcorner : ¬ t.Corner y n) : t.Laid y (n + 1) s where
  cells_eq := by rw [h.cells_eq, begun, begun, corners_succ_of_not hcorner]
  width_le := h.width_le
  height_le := h.height_le
  within := h.within
  behind := by rw [corners_succ_of_not hcorner]; exact h.behind

/-- The next rectangle comes to the place where it begins. -/
theorem Laid.nextFree_eq (h : t.Laid y n s) (hy : y < rows) (hn : n < cols)
    (hcorner : t.Corner y n) : s.1.nextFree y s.2 = n := by
  have htaken : ∀ j, j < n → s.1.Taken y j := by
    intro j hj
    obtain ⟨⟨htop, -⟩, hleft, -⟩ := t.covers y hy j (by omega)
    exact (taken_iff h.cells_eq hy hn.le (by omega)).mpr (by omega)
  refine Layout.nextFree_eq ?_ (fun j _ hj => htaken j hj) ?_ fun hmem => ?_
  · rcases h.behind with hstart | ⟨j, hj, hbehind⟩
    · omega
    · -- a rectangle that reached over column `n` would have the next one in it
      obtain ⟨hj, htop, hleft⟩ := mem_corners.mp hj
      by_contra hlt
      obtain ⟨htops, -⟩ := t.covers y hy j (by omega)
      have hsame := t.same y hy j (by omega) y n ⟨htops, by omega, by omega⟩
      have hleft' := hcorner.2
      rw [hsame] at hleft'
      omega
  · rcases Nat.eq_zero_or_pos n with rfl | hpos
    · exact .inl (Nat.zero_le _)
    · obtain ⟨c, hc, -, -, hright⟩ := htaken (n - 1) (by omega)
      have hwithin := (h.within c hc).1
      omega
  · have hbefore := (taken_iff h.cells_eq hy hn.le hn).mp hmem
    obtain ⟨htop, hleft⟩ := hcorner
    omega

theorem Laid.place (h : t.Laid y n s) (hy : y < rows) (hn : n < cols) (hcorner : t.Corner y n) :
    t.Laid y (n + 1) (Layout.place y s (t.cellAt y n).td) := by
  obtain ⟨htop, hleft⟩ := hcorner
  have hcell : (⟨y, n, (t.cellAt y n).height, (t.cellAt y n).width, (t.cellAt y n).content⟩ :
      Cell δ) = t.cellAt y n := by
    conv_rhs => rw [show t.cellAt y n = ⟨(t.cellAt y n).top, (t.cellAt y n).left, _, _, _⟩ from
      rfl, htop, hleft]
  have hplace : Layout.place y s (t.cellAt y n).td =
      ({ width := max s.1.width (n + (t.cellAt y n).width)
         height := max s.1.height (y + (t.cellAt y n).height)
         cells := s.1.cells ++ [t.cellAt y n] }, n + (t.cellAt y n).width) := by
    rw [Layout.place, h.nextFree_eq hy hn ⟨htop, hleft⟩]
    simp only [Cell.td, hcell]
  have hinside := t.inside y hy n hn
  rw [hplace]
  exact
    { cells_eq := by
        rw [h.cells_eq, begun, begun, corners_succ_of_corner ⟨htop, hleft⟩, List.map_append,
          List.append_assoc]
        rfl
      width_le := max_le h.width_le (by omega)
      height_le := max_le h.height_le (by omega)
      within := by
        intro c hc
        rcases List.mem_append.mp hc with hc | hc
        · obtain ⟨hwidth, hheight⟩ := h.within c hc
          exact ⟨hwidth.trans (le_max_left _ _), hheight.trans (le_max_left _ _)⟩
        · obtain rfl := List.mem_singleton.mp hc
          rw [htop, hleft]
          exact ⟨le_max_right _ _, le_max_right _ _⟩
      behind := .inr ⟨n, mem_corners.mpr ⟨Nat.lt_succ_self n, htop, hleft⟩, rfl⟩ }

theorem Laid.placeRow (h : t.Laid y 0 s) (hy : y < rows) (hn : n ≤ cols) :
    t.Laid y n (((t.corners y n).map (t.cellAt y)).map Cell.td |>.foldl (Layout.place y) s) := by
  induction n with
  | zero => exact h
  | succ n ih =>
      have hbefore := ih (by omega)
      by_cases hcorner : t.Corner y n
      · rw [corners_succ_of_corner hcorner, List.map_append, List.map_append, List.foldl_append]
        exact hbefore.place hy hn hcorner
      · rw [corners_succ_of_not hcorner]
        exact hbefore.skip hcorner

theorem begun_zero : t.begun (y + 1) 0 = t.begun y cols := by
  rw [begun, begun, List.range_succ, List.flatMap_append, List.flatMap_singleton]
  exact List.append_nil _

/-- The reader after some rows. -/
theorem laid_foldl (t : Tiling rows cols δ) (hy : y ≤ rows) :
    t.Laid y 0 ((((List.range y).map fun i => (t.row i).map Cell.td).zipIdx.foldl
      (fun l row => l.placeRow row.2 row.1) {}), 0) := by
  induction y with
  | zero =>
      exact ⟨rfl, Nat.zero_le _, Nat.zero_le _, fun c hc => absurd hc List.not_mem_nil, .inl rfl⟩
  | succ y ih =>
      have hbefore := ih (by omega)
      rw [List.range_succ, List.map_append, List.zipIdx_append, List.foldl_append]
      generalize List.foldl _ _ _ = l at hbefore
      have hstart : t.Laid y 0 ({ l with height := max l.height (y + 1) }, 0) :=
        { cells_eq := hbefore.cells_eq
          width_le := hbefore.width_le
          height_le := max_le hbefore.height_le hy
          within := fun c hc =>
            ⟨(hbefore.within c hc).1, (hbefore.within c hc).2.trans (le_max_left _ _)⟩
          behind := .inl rfl }
      have hrow := hstart.placeRow (by omega) le_rfl
      have hlength : ((List.range y).map fun i => (t.row i).map Cell.td).length = y := by
        rw [List.length_map, List.length_range]
      rw [Nat.zero_add, hlength]
      exact
        { cells_eq := hrow.cells_eq.trans begun_zero.symm
          width_le := hrow.width_le
          height_le := hrow.height_le
          within := hrow.within
          behind := .inl rfl }

theorem begun_rows : t.begun rows 0 = t.cells := List.append_nil _

theorem mem_cells {c : Cell δ} : c ∈ t.cells ↔ ∃ i < rows, ∃ j < cols, t.cellAt i j = c := by
  rw [← begun_rows, mem_begun]
  constructor
  · rintro ⟨i, j, hplace, -, hc⟩
    exact ⟨i, by omega, j, by omega, hc⟩
  · rintro ⟨i, hi, j, hj, rfl⟩
    obtain ⟨⟨htop, -⟩, hleft, -⟩ := t.covers i hi j hj
    obtain ⟨hcorner, hsame⟩ := corner_of_lt hi hj (t := t)
    exact ⟨_, _, .inl ⟨by omega, by omega⟩, hcorner, hsame⟩

/-- The table that is read from the rows of a tiling is the tiling. -/
theorem formTable_tds (t : Tiling rows cols δ) (hrows : 0 < rows) (hcols : 0 < cols) :
    formTable t.tds = { width := cols, height := rows, cells := t.cells } := by
  have hlaid := t.laid_foldl le_rfl
  rw [formTable, tds]
  generalize List.foldl _ _ _ = l at hlaid
  obtain ⟨width, height, cells⟩ := l
  obtain ⟨hcells, hwidth, hheight, hwithin, -⟩ := hlaid
  have hall : cells = t.cells := hcells.trans begun_rows
  obtain ⟨-, -, hright⟩ := t.covers 0 hrows (cols - 1) (by omega)
  obtain ⟨⟨-, hbottom⟩, -⟩ := t.covers (rows - 1) (by omega) 0 hcols
  have hlast : (t.cellAt 0 (cols - 1)).left + (t.cellAt 0 (cols - 1)).width ≤ width :=
    (hwithin _ (hall ▸ mem_cells.mpr ⟨0, hrows, cols - 1, by omega, rfl⟩)).1
  have hlowest : (t.cellAt (rows - 1) 0).top + (t.cellAt (rows - 1) 0).height ≤ height :=
    (hwithin _ (hall ▸ mem_cells.mpr ⟨rows - 1, by omega, 0, hcols, rfl⟩)).2
  have hwidth' : width = cols := le_antisymm hwidth (by omega)
  have hheight' : height = rows := le_antisymm hheight (by omega)
  rw [hwidth', hheight', hall]

end Tiling

end RagflowMineru.Library
