import Mathlib.Data.List.Basic
import Mathlib.Data.List.Flatten
import Mathlib.Tactic.Ring

/-!
# Pages inside windows

A list is cut into windows of `b` entries, each window is worked up on its own
into a list that is no longer than it, and the result is read in pages of
`size` entries, `m` of them to a window.  Read in order, the pages are the
worked-up windows one after the other.

A window is worked up through indices into it; the last section is about
reading a list at indices, none of which is out of range.
-/

namespace RagflowMineru.Library

variable {α β : Type*}

/-- The `k`-th window of `b` entries. -/
def window (b : ℕ) (l : List α) (k : ℕ) : List α :=
  (l.drop (k * b)).take b

/-- All windows; the last ones may be empty. -/
def windows (b : ℕ) (l : List α) : List (List α) :=
  (List.range l.length).map (window b l)

/-- The `p`-th page, `m` pages to a window, of the windows worked up by `f`. -/
def page (f : List α → List β) (m size : ℕ) (l : List α) (p : ℕ) : List β :=
  ((f (window (m * size) l (p / m))).drop ((p % m) * size)).take size

theorem length_window_le (b : ℕ) (l : List α) (k : ℕ) :
    (window b l k).length ≤ b := by
  rw [window, List.length_take]
  exact Nat.min_le_left _ _

theorem length_window_le_sub (b : ℕ) (l : List α) (k : ℕ) :
    (window b l k).length ≤ l.length - k * b := by
  rw [window, List.length_take, List.length_drop]
  exact Nat.min_le_right _ _

/-- Consecutive slices put together. -/
theorem flatMap_slices (m size : ℕ) (l : List β) :
    (List.range m).flatMap (fun j => (l.drop (j * size)).take size) =
      l.take (m * size) := by
  induction m with
  | zero => simp
  | succ m ih =>
      rw [List.range_succ, List.flatMap_append, ih, List.flatMap_singleton,
        Nat.succ_mul, List.take_add]

/-- The windows make up the list. -/
theorem flatten_windows {b : ℕ} (hb : 0 < b) (l : List α) :
    (windows b l).flatten = l := by
  have hlength : l.length ≤ l.length * b := Nat.le_mul_of_pos_right _ hb
  calc
    (windows b l).flatten =
        (List.range l.length).flatMap fun k => (l.drop (k * b)).take b := by
      rw [windows, ← List.flatMap_def]
      rfl
    _ = l.take (l.length * b) := flatMap_slices _ _ _
    _ = l := List.take_of_length_le hlength

/-- Entries that contribute nothing may be left out at the end. -/
theorem flatMap_range_of_nil {F : ℕ → List β} {n k : ℕ}
    (hnil : ∀ p, n ≤ p → F p = []) (hnk : n ≤ k) :
    (List.range k).flatMap F = (List.range n).flatMap F := by
  obtain ⟨d, rfl⟩ := Nat.exists_eq_add_of_le hnk
  have hrest : ((List.range d).map (n + ·)).flatMap F = [] := by
    rw [List.flatMap_eq_nil_iff]
    intro p hp
    obtain ⟨q, -, rfl⟩ := List.mem_map.mp hp
    exact hnil _ (Nat.le_add_right n q)
  rw [List.range_add, List.flatMap_append, hrest, List.append_nil]

/-- Counting to `n * m` is counting to `m` for `n` times. -/
theorem flatMap_range_mul {m : ℕ} (hm : 0 < m) (F : ℕ → ℕ → List β) (n : ℕ) :
    (List.range (n * m)).flatMap (fun p => F (p / m) (p % m)) =
      (List.range n).flatMap fun k => (List.range m).flatMap (F k) := by
  induction n with
  | zero => simp
  | succ n ih =>
      have hlast : ((List.range m).map (n * m + ·)).flatMap
          (fun p => F (p / m) (p % m)) = (List.range m).flatMap (F n) := by
        rw [List.flatMap_map]
        apply List.flatMap_congr
        intro j hj
        have hj' : j < m := List.mem_range.mp hj
        have hdiv : (n * m + j) / m = n := by
          rw [Nat.mul_comm n m, Nat.mul_add_div hm, Nat.div_eq_of_lt hj',
            Nat.add_zero]
        have hmod : (n * m + j) % m = j := by
          rw [Nat.mul_comm n m, Nat.mul_add_mod, Nat.mod_eq_of_lt hj']
        rw [hdiv, hmod]
      rw [Nat.succ_mul, List.range_add, List.flatMap_append, ih, hlast,
        List.range_succ, List.flatMap_append, List.flatMap_singleton]

/-- Behind the end of the list the pages are empty. -/
theorem page_eq_nil {f : List α → List β}
    (hf : ∀ l, (f l).length ≤ l.length) {m size : ℕ} {l : List α} {n p : ℕ}
    (hn : l.length ≤ n * size) (hp : n ≤ p) : page f m size l p = [] := by
  have hsplit : p / m * (m * size) + p % m * size = p * size := by
    calc
      p / m * (m * size) + p % m * size = (m * (p / m) + p % m) * size := by
        ring
      _ = p * size := by rw [Nat.div_add_mod]
  have hpage : n * size ≤ p * size := Nat.mul_le_mul_right size hp
  have hwindow := length_window_le_sub (m * size) l (p / m)
  have hlength := hf (window (m * size) l (p / m))
  rw [page, List.drop_eq_nil_of_le (by omega), List.take_nil]

/-- The pages put together are the windows put together. -/
theorem flatMap_page {f : List α → List β}
    (hf : ∀ l, (f l).length ≤ l.length) {m size : ℕ} (hm : 0 < m)
    (hsize : 0 < size) {l : List α} {n : ℕ} (hn : l.length ≤ n * size) :
    (List.range n).flatMap (page f m size l) =
      (windows (m * size) l).flatMap f := by
  have hwindow : ∀ k, l.length ≤ k → f (window (m * size) l k) = [] := by
    intro k hk
    have hlength := hf (window (m * size) l k)
    have hshort := length_window_le_sub (m * size) l k
    have hpast : k ≤ k * (m * size) :=
      Nat.le_mul_of_pos_right k (Nat.mul_pos hm hsize)
    apply List.eq_nil_of_length_eq_zero
    omega
  have hpages : n ≤ (n + l.length) * m :=
    le_trans (Nat.le_add_right n _) (Nat.le_mul_of_pos_right _ hm)
  calc
    (List.range n).flatMap (page f m size l) =
        (List.range ((n + l.length) * m)).flatMap (page f m size l) :=
      (flatMap_range_of_nil (fun _ hp => page_eq_nil hf hn hp) hpages).symm
    _ = (List.range (n + l.length)).flatMap fun k =>
          (f (window (m * size) l k)).take (m * size) := by
      have hgroup := flatMap_range_mul hm (fun k j =>
        ((f (window (m * size) l k)).drop (j * size)).take size) (n + l.length)
      simp only [flatMap_slices] at hgroup
      exact hgroup
    _ = (List.range (n + l.length)).flatMap fun k =>
          f (window (m * size) l k) := by
      apply List.flatMap_congr
      intro k _
      exact List.take_of_length_le
        ((hf _).trans (length_window_le (m * size) l k))
    _ = (List.range l.length).flatMap fun k => f (window (m * size) l k) :=
      flatMap_range_of_nil hwindow (Nat.le_add_left _ _)
    _ = (windows (m * size) l).flatMap f := by
      rw [windows, List.flatMap_map]

/-! ## Reading at indices -/

/-- A list read at all its indices in order. -/
theorem filterMap_getElem?_range (l : List α) :
    (List.range l.length).filterMap (l[·]?) = l := by
  induction l with
  | nil => rfl
  | cons a l ih =>
      rw [List.length_cons, List.range_succ_eq_map, List.filterMap_cons,
        List.filterMap_map]
      simpa using ih

variable {f : α → Option β} {l : List α}

/-- Where no read fails, a slice is read as the slice of what is read. -/
theorem filterMap_slice (h : ∀ a ∈ l, (f a).isSome = true) (i n : ℕ) :
    ((l.drop i).take n).filterMap f = ((l.filterMap f).drop i).take n := by
  induction l generalizing i n with
  | nil => simp
  | cons a l ih =>
      obtain ⟨b, hb⟩ := Option.isSome_iff_exists.mp (h a List.mem_cons_self)
      have hrest : ∀ a' ∈ l, (f a').isSome = true := by
        intro a' ha'
        exact h a' (List.mem_cons_of_mem a ha')
      cases i with
      | succ i => simpa [hb] using ih hrest i n
      | zero =>
          cases n with
          | zero => simp
          | succ n => simpa [hb] using ih hrest 0 n

/-- Where no read fails, the reads succeed together. -/
theorem mapM_eq_some_filterMap (h : ∀ a ∈ l, (f a).isSome = true) :
    l.mapM f = some (l.filterMap f) := by
  induction l with
  | nil => rfl
  | cons a l ih =>
      obtain ⟨b, hb⟩ := Option.isSome_iff_exists.mp (h a List.mem_cons_self)
      have hrest : ∀ a' ∈ l, (f a').isSome = true := by
        intro a' ha'
        exact h a' (List.mem_cons_of_mem a ha')
      simp [hb, ih hrest]

theorem mapM_eq_some_map {g : α → β} (h : ∀ a ∈ l, f a = some (g a)) :
    l.mapM f = some (l.map g) := by
  rw [mapM_eq_some_filterMap fun a ha => Option.isSome_of_eq_some (h a ha),
    List.filterMap_congr h, List.filterMap_eq_map']

end RagflowMineru.Library
