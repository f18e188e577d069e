import Mathlib.Data.List.Nodup
import Mathlib.Data.List.Infix
import RagflowMineru.Library.Assoc

/-!
# Bounded maps that evict what was used least recently

The entries stand in the order of their last use.  The second part asks what
becomes of such a map when its keys are renamed: the two maps go on holding the
same entries exactly as long as no call meets a cached key that only the
renaming makes equal to its own.
-/

namespace RagflowMineru.Library

/-- The entries of the map, the most recently used one first. -/
@[ext] structure Lru (κ α : Type*) where
  entries : Assoc κ α
  nodup : entries.keys.Nodup

namespace Lru

inductive Op (κ α : Type*) where
  | get (k : κ)
  | put (k : κ) (v : α)
  | remove (k : κ)
  | clear
  deriving DecidableEq

/-- The value that was put last under `k`, where it was `last` before the call. -/
def Op.lastPut {κ α : Type*} [DecidableEq κ] (k : κ) (last : Option α) : Op κ α → Option α
  | get _ => last
  | put k' v => if k' = k then some v else last
  | remove k' => if k' = k then none else last
  | clear => none

theorem Op.lastPut_of_none {κ α : Type*} [DecidableEq κ] {k : κ} {v : α} {op : Op κ α}
    (h : op.lastPut k none = some v) (last : Option α) : op.lastPut k last = some v := by
  cases op with
  | put k' w =>
      rw [lastPut] at h ⊢
      split at h
      · rwa [if_pos ‹_›]
      · cases h
  | get k' | remove k' | clear => simp [lastPut] at h

def Op.mapKey {κ κ' α : Type*} (f : κ → κ') : Op κ α → Op κ' α
  | get k => get (f k)
  | put k v => put (f k) v
  | remove k => remove (f k)
  | clear => clear

variable {κ κ' α : Type*}

def keys (l : Lru κ α) : List κ := Assoc.keys l.entries

def empty : Lru κ α := ⟨[], List.nodup_nil⟩

/-- Drop the entry that was used least recently. -/
def evict (l : Lru κ α) : Lru κ α :=
  ⟨l.entries.dropLast, l.nodup.sublist ((List.dropLast_sublist _).map _)⟩

@[simp] theorem keys_empty : (empty : Lru κ α).keys = [] := rfl

theorem keys_evict (l : Lru κ α) : l.evict.keys = l.keys.dropLast := List.map_dropLast

theorem entries_evict (l : Lru κ α) : l.evict.entries = l.entries.dropLast := rfl

/-- `l'` holds the entries of `l` under renamed keys. -/
def Renamed (f : κ → κ') (l : Lru κ α) (l' : Lru κ' α) : Prop :=
  l'.entries = l.entries.map (Prod.map f id)

theorem Renamed.keys {f : κ → κ'} {l : Lru κ α} {l' : Lru κ' α} (h : Renamed f l l') :
    l'.keys = l.keys.map f := by
  rw [Lru.keys, h, Lru.keys, Assoc.keys, Assoc.keys, List.map_map, List.map_map]
  rfl

theorem Renamed.inj {f : κ → κ'} {l : Lru κ α} {l' : Lru κ' α} {k k' : κ}
    (h : Renamed f l l') (hk : k ∈ l.keys) (hk' : k' ∈ l.keys) (heq : f k = f k') :
    k = k' := by
  have hnodup : (l.keys.map f).Nodup := h.keys ▸ l'.nodup
  exact List.inj_on_of_nodup_map hnodup hk hk' heq

theorem Renamed.evict {f : κ → κ'} {l : Lru κ α} {l' : Lru κ' α} (h : Renamed f l l') :
    Renamed f l.evict l'.evict := by
  rw [Renamed, entries_evict, entries_evict, h, List.map_dropLast]

variable [DecidableEq κ] [DecidableEq κ']

def lookup (l : Lru κ α) (k : κ) : Option α := Assoc.get? k l.entries

def erase (l : Lru κ α) (k : κ) : Lru κ α :=
  ⟨l.entries.filter (·.1 ≠ k), l.nodup.sublist (List.filter_sublist.map _)⟩

/-- `k` with `v` in front of all other entries. -/
def front (l : Lru κ α) (k : κ) (v : α) : Lru κ α where
  entries := (k, v) :: (l.erase k).entries
  nodup := by
    refine List.nodup_cons.mpr ⟨fun hk => ?_, (l.erase k).nodup⟩
    obtain ⟨entry, hentry, rfl⟩ := List.mem_map.mp hk
    simpa using List.of_mem_filter hentry

/-- A call, with what it returns and the map it leaves. -/
def step (capacity : ℤ) (l : Lru κ α) : Op κ α → Option α × Lru κ α
  | .get k =>
      match l.lookup k with
      | some v => (some v, l.front k v)
      | none => (none, l)
  | .put k v =>
      match l.lookup k with
      | some _ => (none, l.front k v)
      | none =>
          if capacity < (l.front k v).entries.length then (none, (l.front k v).evict)
          else (none, l.front k v)
  | .remove k => (none, l.erase k)
  | .clear => (none, empty)

theorem step_get_fst (capacity : ℤ) (l : Lru κ α) (k : κ) :
    (l.step capacity (.get k)).1 = l.lookup k := by
  rw [step]
  cases l.lookup k <;> rfl

theorem step_put_fst (capacity : ℤ) (l : Lru κ α) (k : κ) (v : α) :
    (l.step capacity (.put k v)).1 = none := by
  rw [step]
  split
  · rfl
  · split <;> rfl

/-- The map after a sequence of calls. -/
def run (capacity : ℤ) (calls : List (Op κ α)) : Lru κ α :=
  calls.foldl (fun l op => (l.step capacity op).2) empty

@[simp] theorem run_nil (capacity : ℤ) : run capacity ([] : List (Op κ α)) = empty := rfl

@[simp] theorem run_append_singleton (capacity : ℤ) (calls : List (Op κ α)) (op : Op κ α) :
    run capacity (calls ++ [op]) = ((run capacity calls).step capacity op).2 := by
  simp [run]

/-! ## What the operations leave -/

section

variable {l : Lru κ α} {k k' : κ} {v : α}

theorem entries_erase (l : Lru κ α) (k : κ) :
    (l.erase k).entries = l.entries.filter (·.1 ≠ k) := rfl

theorem entries_front (l : Lru κ α) (k : κ) (v : α) :
    (l.front k v).entries = (k, v) :: (l.erase k).entries := rfl

@[simp] theorem keys_erase (l : Lru κ α) (k : κ) : (l.erase k).keys = l.keys.filter (· ≠ k) := by
  simp only [keys, erase, Assoc.keys, List.filter_map]
  rfl

@[simp] theorem keys_front (l : Lru κ α) (k : κ) (v : α) :
    (l.front k v).keys = k :: l.keys.filter (· ≠ k) := by
  rw [← keys_erase]
  rfl

theorem lookup_eq_none_iff : l.lookup k = none ↔ k ∉ l.keys := Assoc.get?_eq_none_iff

theorem exists_lookup_of_mem (h : k ∈ l.keys) : ∃ v, l.lookup k = some v := by
  rw [← Option.ne_none_iff_exists']
  exact fun hnone => lookup_eq_none_iff.mp hnone h

theorem mem_keys_of_lookup (h : l.lookup k = some v) : k ∈ l.keys :=
  List.mem_map_of_mem (f := Prod.fst) (Assoc.mem_of_get? h)

theorem lookup_eq_some_iff : l.lookup k = some v ↔ (k, v) ∈ l.entries :=
  ⟨Assoc.mem_of_get?, Assoc.get?_of_mem l.nodup⟩

theorem erase_of_notMem (h : k ∉ l.keys) : (l.erase k).entries = l.entries := by
  rw [entries_erase, List.filter_eq_self]
  rintro ⟨k', v⟩ hmem
  have hk' : k' ∈ l.keys := List.mem_map_of_mem (f := Prod.fst) hmem
  simpa using ne_of_mem_of_not_mem hk' h

theorem erase_last (h : l.keys.getLast? = some k) : l.erase k = l.evict := by
  obtain ⟨entry, hlast, rfl⟩ : ∃ entry, l.entries.getLast? = some entry ∧ entry.1 = k := by
    simpa [keys, Assoc.keys, List.getLast?_map] using h
  obtain ⟨others, hentries⟩ := List.getLast?_eq_some_iff.mp hlast
  have hnodup := l.nodup
  rw [hentries, Assoc.keys, List.map_append, List.nodup_append] at hnodup
  have hothers : others.filter (·.1 ≠ entry.1) = others := by
    rw [List.filter_eq_self]
    intro other hmem
    simpa using hnodup.2.2 other.1 (List.mem_map_of_mem hmem) entry.1 (by simp)
  ext1
  rw [entries_erase, entries_evict, hentries, List.filter_append, hothers, List.dropLast_concat]
  simp

/-- What is held under a key after a call was put by the call, or held before. -/
theorem lastPut_of_mem_step {capacity : ℤ} {op : Op κ α}
    (h : (k, v) ∈ (l.step capacity op).2.entries) : op.lastPut k (l.lookup k) = some v := by
  have hfront : ∀ {k' w}, (k, v) ∈ (l.front k' w).entries →
      (if k' = k then some w else l.lookup k) = some v := by
    intro k' w hmem
    rw [entries_front, entries_erase, List.mem_cons, List.mem_filter] at hmem
    rcases hmem with heq | ⟨hmem, hne⟩
    · obtain ⟨rfl, rfl⟩ := Prod.mk.inj heq
      exact if_pos rfl
    · have hne : k ≠ k' := by simpa using hne
      rw [if_neg (Ne.symm hne)]
      exact lookup_eq_some_iff.mpr hmem
  cases op with
  | get k' =>
      rw [Op.lastPut]
      rw [step] at h
      split at h
      · obtain hmem := hfront h
        split at hmem
        · subst k'
          rwa [‹l.lookup k = some _›]
        · exact hmem
      · exact lookup_eq_some_iff.mpr h
  | put k' w =>
      rw [Op.lastPut]
      rw [step] at h
      split at h
      · exact hfront h
      · split at h
        · exact hfront (List.mem_of_mem_dropLast h)
        · exact hfront h
  | remove k' =>
      obtain ⟨hmem, hne⟩ := List.mem_filter.mp h
      have hne : k ≠ k' := by simpa using hne
      rw [Op.lastPut, if_neg (Ne.symm hne)]
      exact lookup_eq_some_iff.mpr hmem
  | clear => exact absurd h List.not_mem_nil

/-- The value of the last `put` of every key. -/
def lastPut (k : κ) (calls : List (Op κ α)) : Option α :=
  calls.foldl (Op.lastPut k) none

theorem lastPut_of_lookup_run {capacity : ℤ} {calls : List (Op κ α)}
    (h : (run capacity calls).lookup k = some v) : lastPut k calls = some v := by
  induction calls using List.reverseRecOn generalizing v with
  | nil => exact absurd h (by simp [lookup, empty])
  | append_singleton calls op ih =>
      rw [run_append_singleton, lookup_eq_some_iff] at h
      have hlast := lastPut_of_mem_step h
      rw [lastPut, List.foldl_append, List.foldl_cons, List.foldl_nil, ← lastPut]
      cases hlookup : (run capacity calls).lookup k with
      | some w => rwa [ih hlookup, ← hlookup]
      | none =>
          exact Op.lastPut_of_none (hlookup ▸ hlast) _

theorem length_front_of_mem (h : k ∈ l.keys) (v : α) :
    (l.front k v).entries.length ≤ l.entries.length := by
  have hlt : (l.erase k).entries.length < l.entries.length := by
    obtain ⟨entry, hentry, rfl⟩ := List.mem_map.mp h
    exact List.length_filter_lt_length_iff_exists.mpr ⟨entry, hentry, by simp⟩
  exact hlt

theorem length_front_of_notMem (h : k ∉ l.keys) (v : α) :
    (l.front k v).entries.length = l.entries.length + 1 := by
  rw [entries_front, erase_of_notMem h, List.length_cons]

theorem length_step_le {capacity : ℤ} (h : l.entries.length ≤ capacity.toNat) (op : Op κ α) :
    (l.step capacity op).2.entries.length ≤ capacity.toNat := by
  cases op with
  | get k =>
      rw [step]
      split
      · exact (length_front_of_mem (mem_keys_of_lookup ‹_›) _).trans h
      · exact h
  | put k v =>
      rw [step]
      split
      · exact (length_front_of_mem (mem_keys_of_lookup ‹_›) _).trans h
      · have hlength := length_front_of_notMem (lookup_eq_none_iff.mp ‹_›) v
        split
        · simp only [entries_evict, List.length_dropLast]
          omega
        · dsimp only
          omega
  | remove k => exact (List.length_filter_le _ _).trans h
  | clear => exact Nat.zero_le _

/-- At most `capacity` entries are ever held. -/
theorem length_run_le (capacity : ℤ) (calls : List (Op κ α)) :
    (run capacity calls).entries.length ≤ capacity.toNat := by
  induction calls using List.reverseRecOn with
  | nil => exact Nat.zero_le _
  | append_singleton calls op ih =>
      rw [run_append_singleton]
      exact length_step_le ih op

end

/-! ## Renamed keys -/

/-- No cached key looks like the key of the call, unless the call drops it anyway. -/
def Apart (f : κ → κ') (capacity : ℤ) (l : Lru κ α) : Op κ α → Prop
  | .get k | .remove k => ∀ k' ∈ l.keys, f k' = f k → k' = k
  | .put k _ =>
      ∀ k' ∈ l.keys, f k' = f k →
        k' = k ∨ (capacity ≤ l.entries.length ∧ l.keys.getLast? = some k')
  | .clear => True

namespace Renamed

variable {f : κ → κ'} {l : Lru κ α} {l' : Lru κ' α} {k k' : κ} {v : α}

theorem lookup (h : Renamed f l l') (hk : ∀ k' ∈ l.keys, f k' = f k → k' = k) :
    l'.lookup (f k) = l.lookup k := by
  rw [Lru.lookup, h, Assoc.get?_map_key hk, Lru.lookup]

theorem erase (h : Renamed f l l') (hk : ∀ k' ∈ l.keys, f k' = f k → k' = k) :
    Renamed f (l.erase k) (l'.erase (f k)) := by
  rw [Renamed, entries_erase, entries_erase, h, List.filter_map]
  congr 1
  refine List.filter_congr fun entry hentry => ?_
  have hmem : entry.1 ∈ l.keys := List.mem_map_of_mem (f := Prod.fst) hentry
  have hiff : f entry.1 = f k ↔ entry.1 = k := ⟨hk _ hmem, congrArg f⟩
  simp [hiff]

theorem front (h : Renamed f l l') (hk : ∀ k' ∈ l.keys, f k' = f k → k' = k) (v : α) :
    Renamed f (l.front k v) (l'.front (f k) v) := by
  rw [Renamed, entries_front, entries_front, h.erase hk]
  rfl

omit [DecidableEq κ] in
/-- A key that looks like a cached one is not cached itself, and found under its new name. -/
theorem exists_lookup_of_twin (h : Renamed f l l') (hk' : k' ∈ l.keys) (heq : f k' = f k)
    (hne : k' ≠ k) : k ∉ l.keys ∧ ∃ w, l'.lookup (f k) = some w := by
  have hmem : f k ∈ l'.keys := by
    rw [h.keys, ← heq]
    exact List.mem_map_of_mem hk'
  exact ⟨fun hk => hne (h.inj hk' hk heq), exists_lookup_of_mem hmem⟩

/-- A new key that is taken for the one that is about to be evicted. -/
theorem front_of_last (h : Renamed f l l') (hk : k ∉ l.keys) (hk' : l.keys.getLast? = some k')
    (heq : f k' = f k) (v : α) : Renamed f (l.front k v).evict (l'.front (f k) v) := by
  have hlast : l'.keys.getLast? = some (f k) := by
    rw [h.keys, List.getLast?_map, hk', Option.map_some, heq]
  have hnonempty : l.entries ≠ [] := by
    rintro hnil
    simp [Lru.keys, hnil, Assoc.keys] at hk'
  rw [Renamed, entries_front, erase_last hlast, h.evict, entries_evict, entries_evict,
    entries_front, erase_of_notMem hk, List.dropLast_cons_of_ne_nil hnonempty]
  rfl

theorem step (h : Renamed f l l') {capacity : ℤ} {op : Op κ α} (hop : Apart f capacity l op) :
    (l'.step capacity (op.mapKey f)).1 = (l.step capacity op).1 ∧
      Renamed f (l.step capacity op).2 (l'.step capacity (op.mapKey f)).2 := by
  cases op with
  | get k =>
      simp only [Op.mapKey, Lru.step, h.lookup hop]
      cases l.lookup k with
      | none => exact ⟨rfl, h⟩
      | some v => exact ⟨rfl, h.front hop v⟩
  | put k v =>
      by_cases hother : ∀ k' ∈ l.keys, f k' = f k → k' = k
      · have hlength : (l'.front (f k) v).entries.length = (l.front k v).entries.length := by
          rw [h.front hother v, List.length_map]
        simp only [Op.mapKey, Lru.step, h.lookup hother, hlength]
        cases l.lookup k with
        | some _ => exact ⟨rfl, h.front hother v⟩
        | none =>
            by_cases hroom : capacity < (l.front k v).entries.length
            · simp only [if_pos hroom]
              exact ⟨trivial, (h.front hother v).evict⟩
            · simp only [if_neg hroom]
              exact ⟨trivial, h.front hother v⟩
      · push Not at hother
        obtain ⟨k', hk', heq, hne⟩ := hother
        obtain ⟨hfull, hlast⟩ := (hop k' hk' heq).resolve_left hne
        obtain ⟨hk, w, hw⟩ := h.exists_lookup_of_twin hk' heq hne
        have hroom : capacity < (l.front k v).entries.length := by
          rw [length_front_of_notMem hk]
          omega
        simp only [Op.mapKey, Lru.step, lookup_eq_none_iff.mpr hk, hw, if_pos hroom]
        exact ⟨trivial, h.front_of_last hk hlast heq v⟩
  | remove k => exact ⟨rfl, h.erase hop⟩
  | clear => exact ⟨rfl, rfl⟩

theorem apart (h : Renamed f l l') {capacity : ℤ} {op : Op κ α}
    (hreturn : (l'.step capacity (op.mapKey f)).1 = (l.step capacity op).1)
    (hnext : Renamed f (l.step capacity op).2 (l'.step capacity (op.mapKey f)).2) :
    Apart f capacity l op := by
  cases op with
  | get k =>
      intro k' hk' heq
      by_contra hne
      obtain ⟨hk, w, hw⟩ := h.exists_lookup_of_twin hk' heq hne
      simp [Op.mapKey, Lru.step, lookup_eq_none_iff.mpr hk, hw] at hreturn
  | put k v =>
      intro k' hk' heq
      by_contra hne
      obtain ⟨hne, hkept⟩ := not_or.mp hne
      have hk : k ∉ l.keys := fun hk => hne (h.inj hk' hk heq)
      have hfront : (l.front k v).keys = k :: l.keys := by
        rw [Lru.keys, entries_front, erase_of_notMem hk]
        rfl
      rw [Lru.step, lookup_eq_none_iff.mpr hk] at hnext
      dsimp only at hnext
      by_cases hroom : capacity < (l.front k v).entries.length
      · rw [if_pos hroom] at hnext
        have hnonempty : l.keys ≠ [] := List.ne_nil_of_mem hk'
        have hevict : (l.front k v).evict.keys = k :: l.keys.dropLast := by
          rw [keys_evict, hfront, List.dropLast_cons_of_ne_nil hnonempty]
        have hlast : l.keys.getLast? ≠ some k' := by
          intro hlast
          rw [length_front_of_notMem hk] at hroom
          exact hkept ⟨by omega, hlast⟩
        have hmem : k' ∈ l.keys.dropLast := by
          rw [← List.dropLast_append_getLast hnonempty, List.mem_append] at hk'
          refine hk'.resolve_right fun hk' => hlast ?_
          rw [List.getLast?_eq_some_getLast hnonempty, List.mem_singleton.mp hk']
        exact hne (hnext.inj (by simp [hevict, hmem]) (by simp [hevict]) heq)
      · rw [if_neg hroom] at hnext
        exact hne (hnext.inj (by simp [hfront, hk']) (by simp [hfront]) heq)
  | remove k =>
      intro k' hk' heq
      by_contra hne
      have hmem : k' ∈ (l.erase k).keys := by simp [hk', hne]
      have hkeys : (l'.erase (f k)).keys = (l.erase k).keys.map f := hnext.keys
      have hgone : f k' ∈ (l'.erase (f k)).keys := hkeys ▸ List.mem_map_of_mem hmem
      simp [heq] at hgone
  | clear => trivial

end Renamed

/-- Under the renaming, the calls return the same and leave the same entries. -/
structure Follows (f : κ → κ') (capacity : ℤ) (calls : List (Op κ α)) : Prop where
  returns : ∀ before op, before ++ [op] <+: calls →
    ((run capacity (before.map (Op.mapKey f))).step capacity (op.mapKey f)).1 =
      ((run capacity before).step capacity op).1
  holds : ∀ before, before <+: calls →
    Renamed f (run capacity before) (run capacity (before.map (Op.mapKey f)))

theorem follows_iff {f : κ → κ'} {capacity : ℤ} {calls : List (Op κ α)} :
    Follows f capacity calls ↔
      ∀ before op, before ++ [op] <+: calls → Apart f capacity (run capacity before) op := by
  constructor
  · intro h before op hbefore
    have hnext := h.holds _ hbefore
    rw [List.map_append, List.map_singleton, run_append_singleton, run_append_singleton] at hnext
    exact (h.holds before ((List.prefix_append _ _).trans hbefore)).apart
      (h.returns before op hbefore) hnext
  · intro hcalls
    have hholds : ∀ before, before <+: calls →
        Renamed f (run capacity before) (run capacity (before.map (Op.mapKey f))) := by
      intro before hbefore
      induction before using List.reverseRecOn with
      | nil => rfl
      | append_singleton before op ih =>
          rw [List.map_append, List.map_singleton, run_append_singleton, run_append_singleton]
          exact ((ih ((List.prefix_append _ _).trans hbefore)).step (hcalls before op hbefore)).2
    exact ⟨fun before op hbefore => ((hholds before ((List.prefix_append _ _).trans hbefore)).step
      (hcalls before op hbefore)).1, hholds⟩

end Lru

end RagflowMineru.Library
