import Mathlib.Data.List.Basic
import Mathlib.Data.List.Induction
import Mathlib.Data.List.Nodup

/-!
# Insertion-ordered dictionaries

A dictionary is the list of its entries in insertion order.  Writing an
existing key keeps its place; writing a new key appends it.  Only lookups and
the order of the keys are ever observed, so entries shadowed by an earlier
entry with the same key are harmless.
-/

namespace RagflowMineru.Library

/-- A dictionary, as its entries in insertion order. -/
abbrev Assoc (α β : Type*) := List (α × β)

namespace Assoc

variable {α β : Type*} [DecidableEq α]

/-- The value stored under `key`. -/
def get? (key : α) : Assoc α β → Option β
  | [] => none
  | (k, v) :: rest => if k = key then some v else get? key rest

/-- Store `value` under `key`, in place when the key exists. -/
def set (key : α) (value : β) : Assoc α β → Assoc α β
  | [] => [(key, value)]
  | (k, v) :: rest =>
      if k = key then (k, value) :: rest else (k, v) :: set key value rest

/-- The keys in insertion order. -/
def keys (d : Assoc α β) : List α := d.map Prod.fst

@[simp] theorem get?_nil (key : α) : get? key ([] : Assoc α β) = none := rfl

@[simp] theorem get?_set_self (key : α) (value : β) (d : Assoc α β) :
    get? key (set key value d) = some value := by
  induction d with
  | nil => simp [set, get?]
  | cons entry rest ih =>
      obtain ⟨k, v⟩ := entry
      by_cases hk : k = key
      · simp [set, get?, hk]
      · simp [set, get?, hk, ih]

theorem get?_set_of_ne {key other : α} (hne : other ≠ key)
    (value : β) (d : Assoc α β) :
    get? other (set key value d) = get? other d := by
  induction d with
  | nil => simp [set, get?, Ne.symm hne]
  | cons entry rest ih =>
      obtain ⟨k, v⟩ := entry
      by_cases hk : k = key
      · subst k
        simp [set, get?, Ne.symm hne]
      · by_cases ho : k = other
        · subst k
          simp [set, get?, hne]
        · simp [set, get?, hk, ho, ih]

theorem get?_eq_none_iff {key : α} {d : Assoc α β} :
    get? key d = none ↔ key ∉ keys d := by
  induction d with
  | nil => simp [keys]
  | cons entry rest ih =>
      obtain ⟨k, v⟩ := entry
      by_cases hk : k = key
      · simp [get?, keys, hk]
      · simpa [get?, keys, hk, Ne.symm hk] using ih

theorem keys_set (key : α) (value : β) (d : Assoc α β) :
    keys (set key value d) = if key ∈ keys d then keys d else keys d ++ [key] := by
  induction d with
  | nil => rfl
  | cons entry rest ih =>
      obtain ⟨k, v⟩ := entry
      by_cases hk : k = key
      · simp [set, keys, hk]
      · have hkeys : keys (set key value ((k, v) :: rest)) = k :: keys (set key value rest) := by
          simp [set, hk, keys]
        have hiff : key ∈ keys ((k, v) :: rest) ↔ key ∈ keys rest := by simp [keys, Ne.symm hk]
        rw [hkeys, ih]
        by_cases hmem : key ∈ keys rest
        · rw [if_pos hmem, if_pos (hiff.mpr hmem)]
          rfl
        · rw [if_neg hmem, if_neg (hiff.not.mpr hmem)]
          rfl

theorem nodup_keys_set {d : Assoc α β} (hd : (keys d).Nodup) (key : α) (value : β) :
    (keys (set key value d)).Nodup := by
  rw [keys_set]
  split
  · exact hd
  · exact List.nodup_append.mpr ⟨hd, List.nodup_singleton key, by
      rintro k hk _ hkey rfl
      exact ‹key ∉ keys d› (List.mem_singleton.mp hkey ▸ hk)⟩

theorem get?_append (key : α) (d e : Assoc α β) :
    get? key (d ++ e) = (get? key d).or (get? key e) := by
  induction d with
  | nil => rfl
  | cons entry d ih =>
      simp only [List.cons_append, get?]
      split_ifs with hkey
      · rfl
      · exact ih

theorem set_of_notMem {key : α} {d : Assoc α β} (h : key ∉ keys d) (value : β) :
    set key value d = d ++ [(key, value)] := by
  induction d with
  | nil => rfl
  | cons entry rest ih =>
      obtain ⟨k, v⟩ := entry
      rw [keys, List.map_cons, List.mem_cons, not_or] at h
      rw [set, if_neg (Ne.symm h.1), ih h.2, List.cons_append]

theorem mem_set {key : α} {value : β} {d : Assoc α β} {entry : α × β}
    (h : entry ∈ set key value d) : entry ∈ d ∨ entry = (key, value) := by
  induction d with
  | nil => exact Or.inr (List.mem_singleton.mp h)
  | cons first rest ih =>
      obtain ⟨k, v⟩ := first
      rw [set] at h
      split_ifs at h with hk
      · rcases List.mem_cons.mp h with rfl | h
        · exact Or.inr (by rw [hk])
        · exact Or.inl (List.mem_cons_of_mem _ h)
      · rcases List.mem_cons.mp h with rfl | h
        · exact Or.inl List.mem_cons_self
        · exact (ih h).imp_left (List.mem_cons_of_mem _)

theorem set_set (key : α) (value value' : β) (d : Assoc α β) :
    set key value (set key value' d) = set key value d := by
  induction d with
  | nil => exact if_pos rfl
  | cons entry rest ih =>
      obtain ⟨k, v⟩ := entry
      by_cases hk : k = key
      · simp only [set, if_pos hk]
      · simp only [set, if_neg hk, ih]

/-- Writing to an existing key and writing to another one are done in any order. -/
theorem set_comm {key other : α} (hne : other ≠ key) {d : Assoc α β} (hkey : key ∈ keys d)
    (value value' : β) :
    set other value' (set key value d) = set key value (set other value' d) := by
  induction d with
  | nil => exact absurd hkey List.not_mem_nil
  | cons entry rest ih =>
      obtain ⟨k, v⟩ := entry
      by_cases hk : k = key
      · have hother : k ≠ other := fun h => hne (h.symm.trans hk)
        simp only [set, if_pos hk, if_neg hother]
      · have hrest : key ∈ keys rest := (List.mem_cons.mp hkey).resolve_left (Ne.symm hk)
        by_cases hother : k = other
        · simp only [set, if_neg hk, if_pos hother]
        · simp only [set, if_neg hk, if_neg hother, ih hrest]

/-- With distinct keys an entry is what is stored under its key. -/
theorem get?_of_mem {d : Assoc α β} (hd : (keys d).Nodup) {key : α} {value : β}
    (h : (key, value) ∈ d) : get? key d = some value := by
  induction d with
  | nil => exact absurd h List.not_mem_nil
  | cons entry rest ih =>
      obtain ⟨k, v⟩ := entry
      obtain ⟨hk, hrest⟩ := List.nodup_cons.mp hd
      rcases List.mem_cons.mp h with heq | hmem
      · obtain ⟨rfl, rfl⟩ := Prod.mk.inj heq
        exact if_pos rfl
      · have hkey : key ∈ keys rest := List.mem_map_of_mem (f := Prod.fst) hmem
        have hne : k ≠ key := by
          rintro rfl
          exact hk hkey
        exact (if_neg hne).trans (ih hrest hmem)

/-- A stored value is smaller than the dictionary that stores it. -/
theorem mem_of_get? {key : α} {value : β} {d : Assoc α β}
    (h : get? key d = some value) : (key, value) ∈ d := by
  induction d with
  | nil => simp at h
  | cons entry rest ih =>
      obtain ⟨k, v⟩ := entry
      by_cases hk : k = key
      · subst k
        have hv : v = value := by simpa [get?] using h
        simp [hv]
      · exact List.mem_cons_of_mem _ (ih (by simpa [get?, hk] using h))

/-- Renamed keys, none of which gets the new name of `key` by accident. -/
theorem get?_map_key {γ : Type*} [DecidableEq γ] {f : α → γ} {key : α} {d : Assoc α β}
    (h : ∀ k ∈ keys d, f k = f key → k = key) :
    get? (f key) (d.map (Prod.map f id)) = get? key d := by
  induction d with
  | nil => rfl
  | cons entry rest ih =>
      obtain ⟨k, v⟩ := entry
      have hhead : f k = f key ↔ k = key := ⟨h k List.mem_cons_self, congrArg f⟩
      have hrest := ih fun k' hk' => h k' (List.mem_cons_of_mem _ hk')
      simp [get?, hhead, hrest]

/-- With distinct keys only one entry has a given key. -/
theorem countP_key {d : Assoc α β} (hd : (keys d).Nodup) {key : α} {value : β}
    (hmem : (key, value) ∈ d) (p : β → Bool) :
    d.countP (fun entry => decide (entry.1 = key) && p entry.2) =
      if p value then 1 else 0 := by
  induction d with
  | nil => simp at hmem
  | cons entry rest ih =>
      obtain ⟨k, v⟩ := entry
      simp only [keys, List.map_cons, List.nodup_cons] at hd
      obtain ⟨hk, hrest⟩ := hd
      rw [List.countP_cons]
      rcases List.mem_cons.mp hmem with heq | htail
      · obtain ⟨rfl, rfl⟩ := Prod.mk.inj heq
        have hzero : rest.countP
            (fun entry => decide (entry.1 = key) && p entry.2) = 0 := by
          rw [List.countP_eq_zero]
          rintro ⟨k', v'⟩ hentry hboth
          have hk' : k' = key := by
            simp only [Bool.and_eq_true, decide_eq_true_eq] at hboth
            exact hboth.1
          apply hk
          rw [← hk']
          exact List.mem_map_of_mem (f := Prod.fst) hentry
        rw [hzero]
        simp
      · have hne : k ≠ key := by
          rintro rfl
          exact hk (List.mem_map_of_mem (f := Prod.fst) htail)
        rw [ih hrest htail]
        simp [hne]

/-! ## Dictionaries built from a list -/

section Build

variable {ι : Type*} {k : ι → α} {v : ι → β}

theorem nodup_keys_foldl_set (l : List ι) {d : Assoc α β} (hd : (keys d).Nodup) :
    (keys (l.foldl (fun d i => set (k i) (v i) d) d)).Nodup := by
  induction l generalizing d with
  | nil => exact hd
  | cons i l ih => exact ih (nodup_keys_set hd (k i) (v i))

theorem mem_foldl_set {l : List ι} {d : Assoc α β} {entry : α × β}
    (h : entry ∈ l.foldl (fun d i => set (k i) (v i) d) d) :
    entry ∈ d ∨ ∃ i ∈ l, entry = (k i, v i) := by
  induction l generalizing d with
  | nil => exact Or.inl h
  | cons i l ih =>
      rcases ih h with h | ⟨j, hj, heq⟩
      · rcases mem_set h with h | heq
        · exact Or.inl h
        · exact Or.inr ⟨i, List.mem_cons_self, heq⟩
      · exact Or.inr ⟨j, List.mem_cons_of_mem i hj, heq⟩

/-- When equal keys have equal values, each key gets its value. -/
theorem get?_foldl_set {l : List ι}
    (hagree : ∀ i ∈ l, ∀ j ∈ l, k i = k j → v i = v j) {i : ι} (hi : i ∈ l)
    (d : Assoc α β) :
    get? (k i) (l.foldl (fun d i => set (k i) (v i) d) d) = some (v i) := by
  induction l using List.reverseRecOn with
  | nil => exact absurd hi List.not_mem_nil
  | append_singleton l j ih =>
      rw [List.foldl_append, List.foldl_cons, List.foldl_nil]
      by_cases hkey : k i = k j
      · rw [hkey, get?_set_self, hagree i hi j (by simp) hkey]
      · rw [get?_set_of_ne hkey]
        have hmem : i ∈ l := by
          rcases List.mem_append.mp hi with hi | hi
          · exact hi
          · exact absurd (congrArg k (List.mem_singleton.mp hi)) hkey
        apply ih _ hmem
        intro i hi j hj
        exact hagree i (List.mem_append_left _ hi) j (List.mem_append_left _ hj)

/-- Each key has the value that was written last. -/
theorem get?_foldl_set_eq (l : List ι) (d : Assoc α β) (key : α) :
    get? key (l.foldl (fun d i => set (k i) (v i) d) d) =
      ((l.filter fun i => k i = key).getLast?.map v).or (get? key d) := by
  induction l using List.reverseRecOn with
  | nil => rfl
  | append_singleton l j ih =>
      rw [List.foldl_append, List.foldl_cons, List.foldl_nil, List.filter_append]
      by_cases hkey : k j = key
      · subst key
        rw [get?_set_self, List.filter_cons_of_pos (by simp), List.filter_nil,
          List.getLast?_concat]
        rfl
      · rw [get?_set_of_ne (Ne.symm hkey), List.filter_cons_of_neg (by simpa using hkey),
          List.filter_nil, List.append_nil]
        exact ih

end Build

end Assoc

end RagflowMineru.Library
