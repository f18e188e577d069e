import Mathlib.Algebra.BigOperators.Group.Finset.Piecewise
import Mathlib.Algebra.Order.BigOperators.Group.Finset
import Mathlib.Algebra.Order.Group.Multiset

/-!
# Grids of cells

A grid has lines and positions across them, with a list of items in each cell.  A line with one
filled cell can be taken out: the items go to the neighbouring line, and the lines behind it move
up.  The items of the grid stay the same, every line and every position keeps an item, and numbers
that the items carry can be kept in step with their cells.
-/

namespace RagflowMineru.Library

open Finset

/-- The cells with `l < lines` and `p < across` count. -/
structure CellGrid (α : Type*) where
  lines : ℕ
  across : ℕ
  cell : ℕ → ℕ → List α

namespace CellGrid

variable {α β : Type*}

/-- Positions become lines. -/
def swap (g : CellGrid α) : CellGrid α := ⟨g.across, g.lines, fun l p => g.cell p l⟩

def map (f : α → β) (g : CellGrid α) : CellGrid β :=
  ⟨g.lines, g.across, fun l p => (g.cell l p).map f⟩

/-- Items in the cells of the numbers that they carry. -/
def ofItems (lineOf posOf : α → ℕ) (lines across : ℕ) (items : List α) : CellGrid α :=
  ⟨lines, across, fun l p => items.filter fun a => lineOf a = l && posOf a = p⟩

/-- The items of a line in their order. -/
def line (g : CellGrid α) (l : ℕ) : List α := (List.range g.across).flatMap (g.cell l)

/-- The positions of a line with an item. -/
def filled (g : CellGrid α) (l : ℕ) : List ℕ :=
  (List.range g.across).filter fun p => !(g.cell l p).isEmpty

/-- The line is taken out and its cell at `p` put behind the one in the line before; the items
that change their line are renumbered. -/
def moveBack (renumber : α → α) (g : CellGrid α) (l p : ℕ) : CellGrid α where
  lines := g.lines - 1
  across := g.across
  cell k q :=
    if k + 1 < l then g.cell k q
    else if k + 1 = l then g.cell k q ++ if q = p then (g.cell l p).map renumber else []
    else (g.cell (k + 1) q).map renumber

/-- The line is taken out and its cell at `p` put behind the one in the next line. -/
def moveOn (renumber : α → α) (g : CellGrid α) (l p : ℕ) : CellGrid α where
  lines := g.lines - 1
  across := g.across
  cell k q :=
    if k < l then g.cell k q
    else if k = l then
      (g.cell (l + 1) q).map renumber ++ if q = p then g.cell l p else []
    else (g.cell (k + 1) q).map renumber

/-- An item lies in the cell at `p` of the line `l`. -/
def Holds (g : CellGrid α) (l p : ℕ) (a : α) : Prop := l < g.lines ∧ p < g.across ∧ a ∈ g.cell l p

/-- All items. -/
def contents (g : CellGrid α) : Multiset α :=
  ∑ l ∈ range g.lines, ∑ p ∈ range g.across, (g.cell l p : Multiset α)

/-- Every line and every position has an item. -/
structure Full (g : CellGrid α) : Prop where
  line : ∀ l < g.lines, ∃ p < g.across, g.cell l p ≠ []
  position : ∀ p < g.across, ∃ l < g.lines, g.cell l p ≠ []

/-- The items carry the numbers of their cells. -/
def InStep (lineOf posOf : α → ℕ) (g : CellGrid α) : Prop :=
  ∀ l p a, g.Holds l p a → lineOf a = l ∧ posOf a = p

/-- Nothing lies in the line outside the position `p`. -/
def Lone (g : CellGrid α) (l p : ℕ) : Prop := ∀ q < g.across, q ≠ p → g.cell l q = []

variable {g : CellGrid α} {l p q : ℕ} {a : α} {f : α → β} {renumber : α → α} {lineOf posOf : α → ℕ}

theorem mem_contents : a ∈ g.contents ↔ ∃ l p, g.Holds l p a := by
  simp only [contents, Multiset.mem_sum, mem_range, Multiset.mem_coe, Holds]
  constructor
  · rintro ⟨l, hl, p, hp, ha⟩
    exact ⟨l, p, hl, hp, ha⟩
  · rintro ⟨l, p, hl, hp, ha⟩
    exact ⟨l, hl, p, hp, ha⟩

theorem mem_line : a ∈ g.line l ↔ ∃ p < g.across, a ∈ g.cell l p := by
  simp [line]

theorem mem_filled : p ∈ g.filled l ↔ p < g.across ∧ g.cell l p ≠ [] := by
  simp [filled]

/-! ## Swapping -/

theorem swap_swap (g : CellGrid α) : g.swap.swap = g := rfl

theorem holds_swap : g.swap.Holds l p a ↔ g.Holds p l a := by
  rw [Holds, Holds, swap]
  exact and_left_comm

theorem contents_swap (g : CellGrid α) : g.swap.contents = g.contents := sum_comm

theorem Full.swap (hg : g.Full) : g.swap.Full := ⟨hg.position, hg.line⟩

theorem InStep.swap (hg : g.InStep lineOf posOf) : g.swap.InStep posOf lineOf := fun l p a ha =>
  (hg p l a (holds_swap.mp ha)).symm

/-! ## Items by their numbers -/

section OfItems

variable {lines across : ℕ} {items : List α}

theorem mem_cell_ofItems :
    a ∈ (ofItems lineOf posOf lines across items).cell l p ↔
      a ∈ items ∧ lineOf a = l ∧ posOf a = p := by
  simp [ofItems]

theorem inStep_ofItems : (ofItems lineOf posOf lines across items).InStep lineOf posOf :=
  fun _ _ _ ha => (mem_cell_ofItems.mp ha.2.2).2

theorem contents_ofItems (hin : ∀ a ∈ items, lineOf a < lines ∧ posOf a < across) :
    (ofItems lineOf posOf lines across items).contents = items := by
  induction items with
  | nil =>
      refine sum_eq_zero fun l _ => sum_eq_zero fun p _ => ?_
      rfl
  | cons a items ih =>
      obtain ⟨hline, hpos⟩ := hin a List.mem_cons_self
      have hcell (l p : ℕ) :
          ((ofItems lineOf posOf lines across (a :: items)).cell l p : Multiset α) =
            (if lineOf a = l then if posOf a = p then {a} else 0 else 0) +
              ((ofItems lineOf posOf lines across items).cell l p : Multiset α) := by
        simp only [ofItems, List.filter_cons]
        by_cases hl : lineOf a = l <;> by_cases hp : posOf a = p <;> simp [hl, hp]
      calc
        (ofItems lineOf posOf lines across (a :: items)).contents
            = ∑ l ∈ range lines, ∑ p ∈ range across,
                ((if lineOf a = l then if posOf a = p then {a} else 0 else 0) +
                  ((ofItems lineOf posOf lines across items).cell l p : Multiset α)) :=
          sum_congr rfl fun l _ => sum_congr rfl fun p _ => hcell l p
        _ = {a} + (ofItems lineOf posOf lines across items).contents := by
          simp only [sum_add_distrib, ← ite_sum_zero, sum_ite_eq, mem_range, hline, hpos, if_true]
          rfl
        _ = (a :: items : List α) := by
          rw [ih fun b hb => hin b (List.mem_cons_of_mem a hb)]
          rfl

/-- Every line and every position is the number of an item. -/
theorem full_ofItems (hin : ∀ a ∈ items, lineOf a < lines ∧ posOf a < across)
    (hline : ∀ l < lines, ∃ a ∈ items, lineOf a = l)
    (hpos : ∀ p < across, ∃ a ∈ items, posOf a = p) :
    (ofItems lineOf posOf lines across items).Full := by
  constructor
  · intro l hl
    obtain ⟨a, ha, rfl⟩ := hline l hl
    exact ⟨posOf a, (hin a ha).2, List.ne_nil_of_mem (mem_cell_ofItems.mpr ⟨ha, rfl, rfl⟩)⟩
  · intro p hp
    obtain ⟨a, ha, rfl⟩ := hpos p hp
    exact ⟨lineOf a, (hin a ha).1, List.ne_nil_of_mem (mem_cell_ofItems.mpr ⟨ha, rfl, rfl⟩)⟩

end OfItems

/-! ## Lone cells -/

theorem exists_of_filled_ne_nil (h : g.filled l ≠ []) : ∃ p < g.across, g.cell l p ≠ [] := by
  obtain ⟨p, hp⟩ := List.exists_mem_of_ne_nil _ h
  exact ⟨p, mem_filled.mp hp⟩

/-- A line of a full grid with less than two filled cells has exactly one. -/
theorem Full.lone (hg : g.Full) (hl : l < g.lines) (h : ∀ p q rest, g.filled l ≠ p :: q :: rest) :
    ∃ p, g.filled l = [p] ∧ p < g.across ∧ g.cell l p ≠ [] ∧ g.Lone l p := by
  obtain ⟨p, hp, hne⟩ := hg.line l hl
  have hmem : p ∈ g.filled l := mem_filled.mpr ⟨hp, hne⟩
  rcases hfilled : g.filled l with _ | ⟨p', _ | ⟨q, rest⟩⟩
  · rw [hfilled] at hmem
    exact absurd hmem List.not_mem_nil
  · obtain rfl := List.mem_singleton.mp (hfilled ▸ hmem)
    refine ⟨p, rfl, hp, hne, fun q hq hqp => ?_⟩
    by_contra hcell
    exact hqp (List.mem_singleton.mp (hfilled ▸ mem_filled.mpr ⟨hq, hcell⟩))
  · exact absurd hfilled (h p' q rest)

/-- Leaving out one place of a sum. -/
theorem sum_range_skip {M : Type*} [AddCommMonoid M] (F : ℕ → M) {n l : ℕ} (hl : l ≤ n) :
    ∑ k ∈ range n, F (if k < l then k else k + 1) + F l = ∑ k ∈ range (n + 1), F k := by
  induction n with
  | zero =>
    obtain rfl := Nat.le_zero.mp hl
    simp
  | succ n ih =>
    rw [sum_range_succ _ (n + 1)]
    rcases hl.lt_or_eq with hlt | rfl
    · rw [sum_range_succ, if_neg (by omega), add_right_comm, ih (by omega)]
    · refine congrArg (· + _) (sum_congr rfl fun k hk => ?_)
      rw [if_pos (mem_range.mp hk)]

/-- What a function makes of the items of a line. -/
def items (f : α → β) (g : CellGrid α) (l : ℕ) : Multiset β :=
  ∑ p ∈ range g.across, ((g.cell l p).map f : Multiset β)

theorem map_contents (f : α → β) (g : CellGrid α) :
    g.contents.map f = ∑ l ∈ range g.lines, g.items f l := by
  simp only [contents, items, ← Multiset.coe_mapAddMonoidHom, map_sum]
  rfl

theorem Lone.items_eq (hlone : g.Lone l p) (hp : p < g.across) :
    g.items f l = ((g.cell l p).map f : Multiset β) := by
  refine sum_eq_single p (fun q hq hqp => ?_) fun hnot => absurd (mem_range.mpr hp) hnot
  rw [hlone q (mem_range.mp hq) hqp]
  rfl

/-- A line is left out and its items are found in another one. -/
theorem contents_of_items {g' : CellGrid α} {t : ℕ} (hlines : g.lines = g'.lines + 1)
    (hl : l ≤ g'.lines) (ht : t < g'.lines)
    (hitems : ∀ k, g'.items f k =
      g.items f (if k < l then k else k + 1) + if k = t then g.items f l else 0) :
    g'.contents.map f = g.contents.map f := by
  rw [map_contents, map_contents, sum_congr rfl fun k _ => hitems k, sum_add_distrib,
    sum_ite_eq' (range g'.lines) t, if_pos (mem_range.mpr ht), hlines]
  exact sum_range_skip (g.items f) hl

theorem cell_map (f : α → β) (g : CellGrid α) (l p : ℕ) :
    (g.map f).cell l p = (g.cell l p).map f :=
  rfl

/-! ## Taking a line out -/

theorem cell_moveBack_of_lt {k : ℕ} (hk : k + 1 < l) :
    (g.moveBack renumber l p).cell k q = g.cell k q :=
  if_pos hk

theorem cell_moveBack_at {k : ℕ} (hk : k + 1 = l) :
    (g.moveBack renumber l p).cell k q =
      g.cell k q ++ if q = p then (g.cell l p).map renumber else [] :=
  (if_neg (by omega)).trans (if_pos hk)

theorem cell_moveBack_of_le {k : ℕ} (hk : l ≤ k) :
    (g.moveBack renumber l p).cell k q = (g.cell (k + 1) q).map renumber :=
  (if_neg (by omega)).trans (if_neg (by omega))

theorem cell_moveOn_of_lt {k : ℕ} (hk : k < l) :
    (g.moveOn renumber l p).cell k q = g.cell k q :=
  if_pos hk

theorem cell_moveOn_self :
    (g.moveOn renumber l p).cell l q =
      (g.cell (l + 1) q).map renumber ++ if q = p then g.cell l p else [] :=
  (if_neg (lt_irrefl l)).trans (if_pos rfl)

theorem cell_moveOn_of_gt {k : ℕ} (hk : l < k) :
    (g.moveOn renumber l p).cell k q = (g.cell (k + 1) q).map renumber :=
  (if_neg (by omega)).trans (if_neg (by omega))

theorem map_map_of_forall (hf : ∀ a, f (renumber a) = f a) (items : List α) :
    (items.map renumber).map f = items.map f := by
  rw [List.map_map]
  exact List.map_congr_left fun a _ => hf a

theorem contents_moveBack (hl : l < g.lines) (hpos : 0 < l) (hp : p < g.across)
    (hlone : g.Lone l p) (hf : ∀ a, f (renumber a) = f a) :
    (g.moveBack renumber l p).contents.map f = g.contents.map f := by
  refine contents_of_items (l := l) (t := l - 1) (Nat.succ_pred_eq_of_pos (by omega)).symm
    (Nat.le_sub_one_of_lt hl) (Nat.sub_lt_sub_right (by omega) hl) fun k => ?_
  rcases lt_trichotomy (k + 1) l with hk | hk | hk
  · rw [if_pos (by omega), if_neg (by omega), add_zero]
    exact sum_congr rfl fun q _ => by rw [cell_moveBack_of_lt hk]
  · rw [if_pos (by omega), if_pos (by omega), hlone.items_eq hp]
    have hcell (q : ℕ) : (((g.moveBack renumber l p).cell k q).map f : Multiset β) =
        ((g.cell k q).map f : Multiset β) +
          if q = p then ((g.cell l p).map f : Multiset β) else 0 := by
      rw [cell_moveBack_at hk, List.map_append, ← Multiset.coe_add]
      split_ifs
      · rw [map_map_of_forall hf]
      · rfl
    calc
      (g.moveBack renumber l p).items f k
          = ∑ q ∈ range g.across, (((g.cell k q).map f : Multiset β) +
              if q = p then ((g.cell l p).map f : Multiset β) else 0) :=
        sum_congr rfl fun q _ => hcell q
      _ = g.items f k + ((g.cell l p).map f : Multiset β) := by
        rw [sum_add_distrib, sum_ite_eq' (range g.across) p, if_pos (mem_range.mpr hp)]
        rfl
  · rw [if_neg (by omega), if_neg (by omega), add_zero]
    exact sum_congr rfl fun q _ => by rw [cell_moveBack_of_le (by omega), map_map_of_forall hf]

theorem contents_moveOn (hl : l + 1 < g.lines) (hp : p < g.across) (hlone : g.Lone l p)
    (hf : ∀ a, f (renumber a) = f a) :
    (g.moveOn renumber l p).contents.map f = g.contents.map f := by
  refine contents_of_items (l := l) (t := l) (Nat.succ_pred_eq_of_pos (by omega)).symm
    (Nat.le_sub_one_of_lt (by omega)) (Nat.lt_sub_of_add_lt hl) fun k => ?_
  rcases lt_trichotomy k l with hk | rfl | hk
  · rw [if_pos hk, if_neg (by omega), add_zero]
    exact sum_congr rfl fun q _ => by rw [cell_moveOn_of_lt hk]
  · rw [if_neg (by omega), if_pos rfl, hlone.items_eq hp]
    have hcell (q : ℕ) : (((g.moveOn renumber k p).cell k q).map f : Multiset β) =
        ((g.cell (k + 1) q).map f : Multiset β) +
          if q = p then ((g.cell k p).map f : Multiset β) else 0 := by
      rw [cell_moveOn_self, List.map_append, map_map_of_forall hf, ← Multiset.coe_add]
      split_ifs <;> rfl
    calc
      (g.moveOn renumber k p).items f k
          = ∑ q ∈ range g.across, (((g.cell (k + 1) q).map f : Multiset β) +
              if q = p then ((g.cell k p).map f : Multiset β) else 0) :=
        sum_congr rfl fun q _ => hcell q
      _ = g.items f (k + 1) + ((g.cell k p).map f : Multiset β) := by
        rw [sum_add_distrib, sum_ite_eq' (range g.across) p, if_pos (mem_range.mpr hp)]
        rfl
  · rw [if_neg (by omega), if_neg (by omega), add_zero]
    exact sum_congr rfl fun q _ => by rw [cell_moveOn_of_gt hk, map_map_of_forall hf]

theorem Full.moveBack (hg : g.Full) (hl : l < g.lines) (hpos : 0 < l) (hne : g.cell l p ≠ [])
    (hlone : g.Lone l p) : (g.moveBack renumber l p).Full := by
  have hback {k q : ℕ} (hk : k + 1 ≤ l) (hcell : g.cell k q ≠ []) :
      (g.moveBack renumber l p).cell k q ≠ [] := by
    rcases hk.lt_or_eq with hk | hk
    · rwa [cell_moveBack_of_lt hk]
    · rw [cell_moveBack_at hk]
      exact List.append_ne_nil_of_left_ne_nil hcell _
  have hon {k q : ℕ} (hk : l ≤ k) (hcell : g.cell (k + 1) q ≠ []) :
      (g.moveBack renumber l p).cell k q ≠ [] := by
    rw [cell_moveBack_of_le hk]
    exact fun h => hcell (List.map_eq_nil_iff.mp h)
  constructor
  · intro k hk
    change k < g.lines - 1 at hk
    rcases Nat.lt_or_ge k l with hkl | hkl
    · obtain ⟨q, hq, hcell⟩ := hg.line k (by omega)
      exact ⟨q, hq, hback hkl hcell⟩
    · obtain ⟨q, hq, hcell⟩ := hg.line (k + 1) (by omega)
      exact ⟨q, hq, hon hkl hcell⟩
  · intro q hq
    obtain ⟨k, hk, hcell⟩ := hg.position q hq
    change ∃ k < g.lines - 1, _
    rcases lt_trichotomy k l with hkl | rfl | hkl
    · exact ⟨k, by omega, hback hkl hcell⟩
    · obtain rfl : q = p := by
        by_contra hqp
        exact hcell (hlone q hq hqp)
      refine ⟨k - 1, by omega, ?_⟩
      rw [cell_moveBack_at (by omega), if_pos rfl]
      exact List.append_ne_nil_of_right_ne_nil _ fun h => hne (List.map_eq_nil_iff.mp h)
    · obtain ⟨k, rfl⟩ := Nat.exists_eq_add_one_of_ne_zero (Nat.ne_zero_of_lt hkl)
      exact ⟨k, by omega, hon (by omega) hcell⟩

theorem Full.moveOn (hg : g.Full) (hl : l + 1 < g.lines) (hne : g.cell l p ≠ [])
    (hlone : g.Lone l p) : (g.moveOn renumber l p).Full := by
  have hback {k q : ℕ} (hk : k < l) (hcell : g.cell k q ≠ []) :
      (g.moveOn renumber l p).cell k q ≠ [] := by
    rwa [cell_moveOn_of_lt hk]
  have hon {k q : ℕ} (hk : l ≤ k) (hcell : g.cell (k + 1) q ≠ []) :
      (g.moveOn renumber l p).cell k q ≠ [] := by
    have hmap : (g.cell (k + 1) q).map renumber ≠ [] := fun h => hcell (List.map_eq_nil_iff.mp h)
    rcases hk.eq_or_lt with rfl | hk
    · rw [cell_moveOn_self]
      exact List.append_ne_nil_of_left_ne_nil hmap _
    · rwa [cell_moveOn_of_gt hk]
  constructor
  · intro k hk
    change k < g.lines - 1 at hk
    rcases Nat.lt_or_ge k l with hkl | hkl
    · obtain ⟨q, hq, hcell⟩ := hg.line k (by omega)
      exact ⟨q, hq, hback hkl hcell⟩
    · obtain ⟨q, hq, hcell⟩ := hg.line (k + 1) (by omega)
      exact ⟨q, hq, hon hkl hcell⟩
  · intro q hq
    obtain ⟨k, hk, hcell⟩ := hg.position q hq
    change ∃ k < g.lines - 1, _
    rcases lt_trichotomy k l with hkl | rfl | hkl
    · exact ⟨k, by omega, hback hkl hcell⟩
    · obtain rfl : q = p := by
        by_contra hqp
        exact hcell (hlone q hq hqp)
      refine ⟨k, by omega, ?_⟩
      rw [cell_moveOn_self, if_pos rfl]
      exact List.append_ne_nil_of_right_ne_nil _ hne
    · obtain ⟨k, rfl⟩ := Nat.exists_eq_add_one_of_ne_zero (Nat.ne_zero_of_lt hkl)
      exact ⟨k, by omega, hon (by omega) hcell⟩

theorem InStep.moveBack (hg : g.InStep lineOf posOf) (hl : l < g.lines) (hp : p < g.across)
    (hline : ∀ a, lineOf (renumber a) = lineOf a - 1) (hpos : ∀ a, posOf (renumber a) = posOf a) :
    (g.moveBack renumber l p).InStep lineOf posOf := by
  rintro k q a ⟨hk, hq, ha⟩
  change k < g.lines - 1 at hk
  rcases lt_trichotomy (k + 1) l with hkl | hkl | hkl
  · rw [cell_moveBack_of_lt hkl] at ha
    exact hg k q a ⟨by omega, hq, ha⟩
  · rw [cell_moveBack_at hkl] at ha
    rcases List.mem_append.mp ha with ha | ha
    · exact hg k q a ⟨by omega, hq, ha⟩
    · split_ifs at ha with hqp
      · subst hqp
        obtain ⟨b, hb, rfl⟩ := List.mem_map.mp ha
        obtain ⟨hbl, hbp⟩ := hg l q b ⟨hl, hp, hb⟩
        rw [hline, hpos, hbl, hbp]
        omega
      · exact absurd ha List.not_mem_nil
  · rw [cell_moveBack_of_le (by omega)] at ha
    obtain ⟨b, hb, rfl⟩ := List.mem_map.mp ha
    obtain ⟨hbl, hbp⟩ := hg (k + 1) q b ⟨by omega, hq, hb⟩
    rw [hline, hpos, hbl, hbp]
    omega

theorem InStep.moveOn (hg : g.InStep lineOf posOf) (hl : l + 1 < g.lines)
    (hline : ∀ a, lineOf (renumber a) = lineOf a - 1) (hpos : ∀ a, posOf (renumber a) = posOf a) :
    (g.moveOn renumber l p).InStep lineOf posOf := by
  have hbehind {k q : ℕ} {b : α} (hk : k + 1 < g.lines) (hq : q < g.across)
      (hb : b ∈ g.cell (k + 1) q) : lineOf (renumber b) = k ∧ posOf (renumber b) = q := by
    obtain ⟨hbl, hbp⟩ := hg (k + 1) q b ⟨hk, hq, hb⟩
    rw [hline, hpos, hbl, hbp]
    omega
  rintro k q a ⟨hk, hq, ha⟩
  change k < g.lines - 1 at hk
  change q < g.across at hq
  rcases lt_trichotomy k l with hkl | rfl | hkl
  · rw [cell_moveOn_of_lt hkl] at ha
    exact hg k q a ⟨by omega, hq, ha⟩
  · rw [cell_moveOn_self] at ha
    rcases List.mem_append.mp ha with ha | ha
    · obtain ⟨b, hb, rfl⟩ := List.mem_map.mp ha
      exact hbehind hl hq hb
    · split_ifs at ha with hqp
      · subst hqp
        exact hg k q a ⟨by omega, hq, ha⟩
      · exact absurd ha List.not_mem_nil
  · rw [cell_moveOn_of_gt hkl] at ha
    obtain ⟨b, hb, rfl⟩ := List.mem_map.mp ha
    exact hbehind (by omega) hq hb

end CellGrid

end RagflowMineru.Library
