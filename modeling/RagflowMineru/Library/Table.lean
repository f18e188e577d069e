import Mathlib.Algebra.Order.BigOperators.Group.Finset

/-!
# Tables with a primary key

A finite set of keys with a row for each.  Updating or deleting a key that is
not there does nothing.  `total` adds a column up; what an update or a deletion
does to it is the change of the one row.
-/

namespace RagflowMineru.Library

/-- A table; `row` only matters on `keys`. -/
structure Table (κ ρ : Type*) where
  keys : Finset κ
  row : κ → ρ

namespace Table

variable {κ ρ M : Type*}

def empty [Inhabited ρ] : Table κ ρ := ⟨∅, fun _ => default⟩

/-- Every row satisfies `p`. -/
def All (p : ρ → Prop) (t : Table κ ρ) : Prop := ∀ k ∈ t.keys, p (t.row k)

theorem all_empty [Inhabited ρ] (p : ρ → Prop) :
    All p (empty : Table κ ρ) := by
  simp [All, empty]

/-- The sum of a column. -/
def total [AddCommGroup M] (g : ρ → M) (t : Table κ ρ) : M :=
  ∑ k ∈ t.keys, g (t.row k)

@[simp] theorem total_empty [Inhabited ρ] [AddCommGroup M] (g : ρ → M) :
    total g (empty : Table κ ρ) = 0 := by
  simp [total, empty]

section

variable {t : Table κ ρ} [AddCommGroup M]

/-- Some row counts if the total does. -/
theorem exists_row_of_total_ne_zero {g : ρ → M} (h : total g t ≠ 0) :
    ∃ k ∈ t.keys, g (t.row k) ≠ 0 :=
  Finset.exists_ne_zero_of_sum_ne_zero h

variable [PartialOrder M] [IsOrderedAddMonoid M] {g : ρ → M}

theorem total_nonneg (hg : ∀ r, 0 ≤ g r) : 0 ≤ total g t :=
  Finset.sum_nonneg fun k _ => hg (t.row k)

theorem row_le_total (hg : ∀ r, 0 ≤ g r) {k : κ} (hk : k ∈ t.keys) :
    g (t.row k) ≤ total g t :=
  Finset.single_le_sum (f := fun k => g (t.row k)) (fun k _ => hg (t.row k)) hk

theorem row_add_row_le_total (hg : ∀ r, 0 ≤ g r) {k k' : κ} (hk : k ∈ t.keys)
    (hk' : k' ∈ t.keys) (hne : k ≠ k') :
    g (t.row k) + g (t.row k') ≤ total g t :=
  Finset.add_le_sum (f := fun k => g (t.row k)) (fun k _ => hg (t.row k)) hk hk'
    hne

end

/-! ## Ordered windows -/

/-- `l` is an answer to a query for the first `limit` keys whose rows satisfy
`p`, in the order `le` of the rows.  Rows that `le` does not tell apart may come
in any order. -/
def FirstRows (t : Table κ ρ) (p : ρ → Prop) [DecidablePred p] (le : ρ → ρ → Prop)
    (limit : ℕ) (l : List κ) : Prop :=
  l.Nodup ∧ (∀ k ∈ l, k ∈ t.keys ∧ p (t.row k)) ∧
    l.length = min limit (t.keys.filter fun k => p (t.row k)).card ∧
    l.Pairwise (fun k k' => le (t.row k) (t.row k')) ∧
    ∀ k ∈ t.keys, p (t.row k) → k ∉ l → ∀ k' ∈ l, le (t.row k') (t.row k)

section

variable {p : ρ → Prop} [DecidablePred p] {le : ρ → ρ → Prop} {t : Table κ ρ}
  {limit : ℕ} {l : List κ}

instance [DecidableEq κ] [DecidableRel le] : Decidable (t.FirstRows p le limit l) :=
  inferInstanceAs (Decidable (_ ∧ _))

theorem FirstRows.nodup (h : t.FirstRows p le limit l) : l.Nodup := h.1

theorem FirstRows.mem_keys (h : t.FirstRows p le limit l) {k : κ} (hk : k ∈ l) :
    k ∈ t.keys := (h.2.1 k hk).1

theorem FirstRows.satisfies (h : t.FirstRows p le limit l) {k : κ} (hk : k ∈ l) :
    p (t.row k) := (h.2.1 k hk).2

/-- A window that is wide enough shows the whole table. -/
theorem FirstRows.sum_eq_total [AddCommGroup M] (g : ρ → M)
    (h : t.FirstRows (fun _ => True) le limit l) (hlimit : t.keys.card ≤ limit) :
    (l.map fun k => g (t.row k)).sum = total g t := by
  classical
  obtain ⟨hnodup, hmem, hlength, -⟩ := h
  have hcard : t.keys.card ≤ l.toFinset.card := by
    rw [List.toFinset_card_of_nodup hnodup, hlength, Finset.filter_true,
      Nat.min_eq_right hlimit]
  have hkeys : l.toFinset = t.keys :=
    Finset.eq_of_subset_of_card_le
      (fun k hk => (hmem k (List.mem_toFinset.mp hk)).1) hcard
  rw [total, ← hkeys, List.sum_toFinset _ hnodup]

end

/-! ## Operations -/

variable [DecidableEq κ]

def get? (t : Table κ ρ) (k : κ) : Option ρ :=
  if k ∈ t.keys then some (t.row k) else none

def insert (t : Table κ ρ) (k : κ) (r : ρ) : Table κ ρ :=
  ⟨Insert.insert k t.keys, Function.update t.row k r⟩

def update (t : Table κ ρ) (k : κ) (f : ρ → ρ) : Table κ ρ :=
  if k ∈ t.keys then ⟨t.keys, Function.update t.row k (f (t.row k))⟩ else t

def delete (t : Table κ ρ) (k : κ) : Table κ ρ := ⟨t.keys.erase k, t.row⟩

def deleteAll (t : Table κ ρ) (ks : List κ) : Table κ ρ := ks.foldl delete t

/-- Both tables; where a key is in both, the row of the second counts. -/
def overlay (t t' : Table κ ρ) : Table κ ρ :=
  ⟨t.keys ∪ t'.keys, fun k => if k ∈ t'.keys then t'.row k else t.row k⟩

/-- Write rows one after the other; a later row under the same key wins. -/
def insertAll (t : Table κ ρ) (rows : List (κ × ρ)) : Table κ ρ :=
  rows.foldl (fun t r => t.insert r.1 r.2) t

theorem get?_eq_some_iff {t : Table κ ρ} {k : κ} {r : ρ} :
    t.get? k = some r ↔ k ∈ t.keys ∧ t.row k = r := by
  by_cases h : k ∈ t.keys <;> simp [get?, h]

theorem get?_eq_none_iff {t : Table κ ρ} {k : κ} :
    t.get? k = none ↔ k ∉ t.keys := by
  by_cases h : k ∈ t.keys <;> simp [get?, h]

theorem mem_keys_iff {t : Table κ ρ} {k : κ} : k ∈ t.keys ↔ t.get? k ≠ none := by
  rw [ne_eq, get?_eq_none_iff, not_not]

@[simp] theorem get?_empty [Inhabited ρ] (k : κ) : (empty : Table κ ρ).get? k = none := by
  simp [get?, empty]

theorem get?_insert (t : Table κ ρ) (k k' : κ) (r : ρ) :
    (t.insert k r).get? k' = if k' = k then some r else t.get? k' := by
  by_cases h : k' = k <;> simp [get?, insert, h]

theorem get?_delete (t : Table κ ρ) (k k' : κ) :
    (t.delete k).get? k' = if k' = k then none else t.get? k' := by
  by_cases h : k' = k <;> simp [get?, delete, h]

theorem get?_overlay (t t' : Table κ ρ) (k : κ) :
    (t.overlay t').get? k = (t'.get? k).or (t.get? k) := by
  by_cases h : k ∈ t'.keys <;> simp [get?, overlay, h]

theorem get?_insertAll_of_notMem {t : Table κ ρ} {rows : List (κ × ρ)} {k : κ}
    (h : k ∉ rows.map Prod.fst) : (t.insertAll rows).get? k = t.get? k := by
  induction rows generalizing t with
  | nil => rfl
  | cons r rows ih =>
      obtain ⟨hne, hrest⟩ := not_or.mp (mt List.mem_cons.mpr h)
      calc
        (t.insertAll (r :: rows)).get? k = ((t.insert r.1 r.2).insertAll rows).get? k := rfl
        _ = (t.insert r.1 r.2).get? k := ih hrest
        _ = t.get? k := by rw [get?_insert, if_neg hne]

/-- What is read after several inserts is one of the rows or was there before. -/
theorem mem_or_get?_of_get?_insertAll {t : Table κ ρ} {rows : List (κ × ρ)} {k : κ} {r : ρ}
    (h : (t.insertAll rows).get? k = some r) : (k, r) ∈ rows ∨ t.get? k = some r := by
  induction rows generalizing t with
  | nil => exact .inr h
  | cons r' rows ih =>
      obtain hmem | hget := ih (show ((t.insert r'.1 r'.2).insertAll rows).get? k = some r from h)
      · exact .inl (.tail _ hmem)
      · rw [get?_insert] at hget
        split_ifs at hget with heq
        · obtain rfl := Option.some.inj hget
          rw [heq]
          exact .inl (.head _)
        · exact .inr hget

theorem insertAll_append (t : Table κ ρ) (rows rows' : List (κ × ρ)) :
    t.insertAll (rows ++ rows') = (t.insertAll rows).insertAll rows' :=
  List.foldl_append

theorem get?_deleteAll (t : Table κ ρ) (ks : List κ) (k : κ) :
    (t.deleteAll ks).get? k = if k ∈ ks then none else t.get? k := by
  induction ks generalizing t with
  | nil => rfl
  | cons k' ks ih =>
      have hcons : (t.deleteAll (k' :: ks)).get? k = ((t.delete k').deleteAll ks).get? k := rfl
      rw [hcons, ih, get?_delete]
      by_cases hk : k = k' <;> by_cases hks : k ∈ ks <;> simp [hk, hks]

@[simp] theorem keys_update (t : Table κ ρ) (k : κ) (f : ρ → ρ) :
    (t.update k f).keys = t.keys := by
  by_cases h : k ∈ t.keys <;> simp [update, h]

@[simp] theorem keys_delete (t : Table κ ρ) (k : κ) :
    (t.delete k).keys = t.keys.erase k := rfl

@[simp] theorem keys_insert (t : Table κ ρ) (k : κ) (r : ρ) :
    (t.insert k r).keys = Insert.insert k t.keys := rfl

@[simp] theorem row_insert_self (t : Table κ ρ) (k : κ) (r : ρ) :
    (t.insert k r).row k = r := by
  simp [insert]

theorem update_of_notMem {t : Table κ ρ} {k : κ} (h : k ∉ t.keys)
    (f : ρ → ρ) : t.update k f = t := if_neg h

theorem row_update_self {t : Table κ ρ} {k : κ} (h : k ∈ t.keys)
    (f : ρ → ρ) : (t.update k f).row k = f (t.row k) := by
  simp [update, h]

theorem row_update_of_ne (t : Table κ ρ) {k k' : κ} (h : k' ≠ k)
    (f : ρ → ρ) : (t.update k f).row k' = t.row k' := by
  by_cases hk : k ∈ t.keys <;> simp [update, hk, h]

/-! ## Conditions on all rows -/

variable {p : ρ → Prop} {t : Table κ ρ}

theorem All.insert (h : All p t) (k : κ) {r : ρ} (hr : p r) :
    All p (t.insert k r) := by
  intro k' hk'
  by_cases heq : k' = k
  · subst heq
    simpa [Table.insert] using hr
  · simpa [Table.insert, heq] using
      h k' ((Finset.mem_insert.mp hk').resolve_left heq)

theorem All.delete (h : All p t) (k : κ) : All p (t.delete k) :=
  fun k' hk' => h k' (Finset.mem_of_mem_erase hk')

/-- Only the updated row needs a look. -/
theorem all_update_iff (h : All p t) (k : κ) (f : ρ → ρ) :
    All p (t.update k f) ↔ (k ∈ t.keys → p (f (t.row k))) := by
  constructor
  · intro hall hk
    have hrow := hall k (by simpa using hk)
    rwa [row_update_self hk] at hrow
  · intro hnew k' hk'
    rw [keys_update] at hk'
    by_cases heq : k' = k
    · subst heq
      rw [row_update_self hk']
      exact hnew hk'
    · rw [t.row_update_of_ne heq]
      exact h k' hk'

/-! ## Column totals -/

variable [AddCommGroup M]

theorem total_insert (g : ρ → M) {k : κ} (h : k ∉ t.keys) (r : ρ) :
    total g (t.insert k r) = total g t + g r := by
  have hrest : ∑ k' ∈ t.keys, g (Function.update t.row k r k') =
      ∑ k' ∈ t.keys, g (t.row k') := by
    refine Finset.sum_congr rfl fun k' hk' => ?_
    rw [Function.update_of_ne (ne_of_mem_of_not_mem hk' h)]
  calc
    total g (t.insert k r) =
        g (Function.update t.row k r k) +
          ∑ k' ∈ t.keys, g (Function.update t.row k r k') :=
      Finset.sum_insert h
    _ = g r + total g t := by
      rw [hrest, Function.update_self, total]
    _ = total g t + g r := add_comm _ _

theorem total_delete (g : ρ → M) {k : κ} (h : k ∈ t.keys) :
    total g (t.delete k) = total g t - g (t.row k) := by
  rw [total, delete, Finset.sum_erase_eq_sub h, total]

theorem total_update (g : ρ → M) {k : κ} (h : k ∈ t.keys) (f : ρ → ρ) :
    total g (t.update k f) = total g t - g (t.row k) + g (f (t.row k)) := by
  have hrest : ∑ k' ∈ t.keys.erase k,
      g (Function.update t.row k (f (t.row k)) k') =
        ∑ k' ∈ t.keys.erase k, g (t.row k') := by
    refine Finset.sum_congr rfl fun k' hk' => ?_
    rw [Function.update_of_ne (Finset.ne_of_mem_erase hk')]
  rw [update, if_pos h]
  calc
    total g ⟨t.keys, Function.update t.row k (f (t.row k))⟩ =
        ∑ k' ∈ t.keys.erase k, g (Function.update t.row k (f (t.row k)) k') +
          g (Function.update t.row k (f (t.row k)) k) :=
      (Finset.sum_erase_add _ _ h).symm
    _ = total g t - g (t.row k) + g (f (t.row k)) := by
      rw [hrest, Function.update_self, Finset.sum_erase_eq_sub h, total]

/-- A column that the update leaves alone. -/
theorem total_update_of_eq (g : ρ → M) (k : κ) {f : ρ → ρ}
    (hf : ∀ r, g (f r) = g r) : total g (t.update k f) = total g t := by
  by_cases h : k ∈ t.keys
  · rw [total_update g h, hf, sub_add_cancel]
  · rw [update_of_notMem h]

/-! ## Several rows at a time -/

omit [AddCommGroup M] in
@[simp] theorem row_deleteAll (t : Table κ ρ) (ks : List κ) :
    (t.deleteAll ks).row = t.row := by
  induction ks generalizing t with
  | nil => rfl
  | cons k ks ih => exact ih (t.delete k)

omit [AddCommGroup M] in
theorem mem_keys_deleteAll {ks : List κ} {k : κ} :
    k ∈ (t.deleteAll ks).keys ↔ k ∈ t.keys ∧ k ∉ ks := by
  induction ks generalizing t with
  | nil => simp [deleteAll]
  | cons k' ks ih =>
      change k ∈ ((t.delete k').deleteAll ks).keys ↔ _
      rw [ih, keys_delete, Finset.mem_erase, List.mem_cons]
      tauto

omit [AddCommGroup M] in
theorem mem_keys_insertAll {rows : List (κ × ρ)} {k : κ} :
    k ∈ (t.insertAll rows).keys ↔ k ∈ t.keys ∨ k ∈ rows.map Prod.fst := by
  induction rows generalizing t with
  | nil => simp [insertAll]
  | cons r rows ih =>
      change k ∈ ((t.insert r.1 r.2).insertAll rows).keys ↔ _
      rw [ih, keys_insert, Finset.mem_insert, List.map_cons, List.mem_cons]
      tauto

/-- Deleting rows that are there takes their values off the total. -/
theorem total_deleteAll (g : ρ → M) {ks : List κ} (hnodup : ks.Nodup)
    (hks : ∀ k ∈ ks, k ∈ t.keys) :
    total g (t.deleteAll ks) = total g t - (ks.map fun k => g (t.row k)).sum := by
  induction ks generalizing t with
  | nil => simp [deleteAll]
  | cons k ks ih =>
      obtain ⟨hk, hnodup⟩ := List.nodup_cons.mp hnodup
      have hrest : ∀ k' ∈ ks, k' ∈ (t.delete k).keys := fun k' hk' =>
        Finset.mem_erase.mpr ⟨ne_of_mem_of_not_mem hk' hk, hks k' (.tail _ hk')⟩
      calc
        total g (t.deleteAll (k :: ks)) = total g ((t.delete k).deleteAll ks) := rfl
        _ = total g (t.delete k) - (ks.map fun k => g (t.row k)).sum :=
          ih hnodup hrest
        _ = total g t - ((k :: ks).map fun k => g (t.row k)).sum := by
          rw [total_delete g (hks k (.head _)), List.map_cons, List.sum_cons, sub_sub]

/-- Rows under new keys add their values to the total. -/
theorem total_insertAll (g : ρ → M) {rows : List (κ × ρ)}
    (hnodup : (rows.map Prod.fst).Nodup) (hnew : ∀ k ∈ rows.map Prod.fst, k ∉ t.keys) :
    total g (t.insertAll rows) = total g t + (rows.map fun r => g r.2).sum := by
  induction rows generalizing t with
  | nil => simp [insertAll]
  | cons r rows ih =>
      obtain ⟨hr, hnodup⟩ := List.nodup_cons.mp hnodup
      have hrest : ∀ k ∈ rows.map Prod.fst, k ∉ (t.insert r.1 r.2).keys := by
        intro k hk hmem
        obtain rfl | hmem := Finset.mem_insert.mp hmem
        · exact hr hk
        · exact hnew k (.tail _ hk) hmem
      calc
        total g (t.insertAll (r :: rows)) = total g ((t.insert r.1 r.2).insertAll rows) := rfl
        _ = total g (t.insert r.1 r.2) + (rows.map fun r => g r.2).sum :=
          ih hnodup hrest
        _ = total g t + ((r :: rows).map fun r => g r.2).sum := by
          rw [total_insert g (hnew r.1 (.head _)), List.map_cons, List.sum_cons, add_assoc]

end Table

end RagflowMineru.Library
