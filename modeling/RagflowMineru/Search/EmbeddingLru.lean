import RagflowMineru.Library.Lru
import RagflowMineru.Library.Table

/-!
# The cache of question embeddings

`EmbeddingLRU`: a map from keys to list elements, and the list in the order of
use.  An element is known by its address.  The key of a question and an
embedding id joins the two strings with a separator that both may contain.
-/

namespace RagflowMineru.Search

open Library

/-- An element of the list, with its entry. -/
structure Element (α : Type*) where
  address : ℕ
  key : String
  value : α

structure EmbeddingLru (α : Type*) where
  capacity : ℤ
  cache : Table String ℕ
  list : List (Element α)
  /-- The next free address. -/
  next : ℕ

namespace EmbeddingLru

variable {α : Type*}

def new (capacity : ℤ) : EmbeddingLru α :=
  { capacity, cache := .empty, list := [], next := 0 }

def buildKey (question embeddingID : String) : String := question ++ "::" ++ embeddingID

/-- The key of a pair of strings. -/
abbrev pairKey (p : String × String) : String := buildKey p.1 p.2

/-- `lru.cache[key]`. -/
def elem? (lru : EmbeddingLru α) (key : String) : Option (Element α) :=
  (lru.cache.get? key).bind fun address => lru.list.find? (·.address = address)

/-- `lru.list.MoveToFront(elem)`. -/
def moveToFront (lru : EmbeddingLru α) (elem : Element α) : EmbeddingLru α :=
  { lru with list := elem :: lru.list.filter (·.address ≠ elem.address) }

/-- `lru.list.Remove(elem)` and the deletion of its key. -/
def removeElement (lru : EmbeddingLru α) (elem : Element α) : EmbeddingLru α :=
  { lru with
    list := lru.list.filter (·.address ≠ elem.address)
    cache := lru.cache.delete elem.key }

def get (lru : EmbeddingLru α) (question embeddingID : String) :
    Option α × EmbeddingLru α :=
  match lru.elem? (buildKey question embeddingID) with
  | some elem => (some elem.value, lru.moveToFront elem)
  | none => (none, lru)

def evictOldest (lru : EmbeddingLru α) : EmbeddingLru α :=
  match lru.list.getLast? with
  | some elem => lru.removeElement elem
  | none => lru

/-- `lru.list.PushFront` of a new entry. -/
def pushFront (lru : EmbeddingLru α) (key : String) (embedding : α) : EmbeddingLru α :=
  { lru with
    list := ⟨lru.next, key, embedding⟩ :: lru.list
    cache := lru.cache.insert key lru.next
    next := lru.next + 1 }

def put (lru : EmbeddingLru α) (question embeddingID : String) (embedding : α) :
    EmbeddingLru α :=
  let key := buildKey question embeddingID
  match lru.elem? key with
  | some elem => lru.moveToFront { elem with value := embedding }
  | none =>
      let lru := lru.pushFront key embedding
      if lru.capacity < lru.list.length then lru.evictOldest else lru

def remove (lru : EmbeddingLru α) (question embeddingID : String) : EmbeddingLru α :=
  match lru.elem? (buildKey question embeddingID) with
  | some elem => lru.removeElement elem
  | none => lru

def clear (lru : EmbeddingLru α) : EmbeddingLru α :=
  { lru with cache := .empty, list := [] }

/-- A call, with what it returns and the cache it leaves. -/
def step (lru : EmbeddingLru α) : Lru.Op (String × String) α → Option α × EmbeddingLru α
  | .get (question, embeddingID) => lru.get question embeddingID
  | .put (question, embeddingID) embedding => (none, lru.put question embeddingID embedding)
  | .remove (question, embeddingID) => (none, lru.remove question embeddingID)
  | .clear => (none, lru.clear)

def run (capacity : ℤ) (calls : List (Lru.Op (String × String) α)) : EmbeddingLru α :=
  calls.foldl (fun lru op => (lru.step op).2) (new capacity)

@[simp] theorem run_append_singleton (capacity : ℤ) (calls : List (Lru.Op (String × String) α))
    (op : Lru.Op (String × String) α) :
    run capacity (calls ++ [op]) = ((run capacity calls).step op).2 := by
  simp [run]

/-! ## The map and the list -/

/-- The map and the list hold the same entries. -/
structure Consistent (lru : EmbeddingLru α) : Prop where
  fresh : ∀ elem ∈ lru.list, elem.address < lru.next
  distinct : (lru.list.map Element.address).Nodup
  listed : ∀ key address, lru.cache.get? key = some address ↔
    ∃ elem ∈ lru.list, elem.address = address ∧ elem.key = key

/-- The keys and values, in the order of use. -/
def contents (lru : EmbeddingLru α) : List (String × α) :=
  lru.list.map fun elem => (elem.key, elem.value)

variable {lru : EmbeddingLru α} {elem other : Element α} {key : String} {value : α}

theorem Consistent.eq_of_address (h : Consistent lru) (helem : elem ∈ lru.list)
    (hother : other ∈ lru.list) (heq : other.address = elem.address) : other = elem :=
  List.inj_on_of_nodup_map h.distinct hother helem heq

theorem Consistent.eq_of_key (h : Consistent lru) (helem : elem ∈ lru.list)
    (hother : other ∈ lru.list) (heq : other.key = elem.key) : other = elem := by
  have hget := (h.listed elem.key elem.address).mpr ⟨elem, helem, rfl, rfl⟩
  have hget' := (h.listed elem.key other.address).mpr ⟨other, hother, rfl, heq⟩
  exact h.eq_of_address helem hother (Option.some.inj (hget'.symm.trans hget))

theorem Consistent.elem?_eq_some_iff (h : Consistent lru) :
    lru.elem? key = some elem ↔ elem ∈ lru.list ∧ elem.key = key := by
  rw [elem?, Option.bind_eq_some_iff]
  constructor
  · rintro ⟨address, hget, hfind⟩
    obtain ⟨other, hother, hotheraddress, rfl⟩ := (h.listed key address).mp hget
    have haddress : elem.address = address := by simpa using List.find?_some hfind
    have hmem := List.mem_of_find?_eq_some hfind
    exact ⟨hmem, congrArg Element.key
      (h.eq_of_address hother hmem (haddress.trans hotheraddress.symm))⟩
  · rintro ⟨hmem, rfl⟩
    refine ⟨elem.address, (h.listed _ _).mpr ⟨elem, hmem, rfl, rfl⟩, ?_⟩
    cases hfind : lru.list.find? (·.address = elem.address) with
    | none => simpa using List.find?_eq_none.mp hfind elem hmem
    | some other =>
        have haddress : other.address = elem.address := by simpa using List.find?_some hfind
        rw [h.eq_of_address hmem (List.mem_of_find?_eq_some hfind) haddress]

/-- The list is a map from the joined keys, in the order of use. -/
structure Simulates (lru : EmbeddingLru α) (l : Lru String α) : Prop where
  consistent : Consistent lru
  entries : l.entries = lru.contents

namespace Simulates

variable {l : Lru String α}

theorem keys (h : Simulates lru l) : l.keys = lru.list.map Element.key := by
  rw [Lru.keys, Assoc.keys, h.entries, contents, List.map_map]
  rfl

theorem lookup (h : Simulates lru l) : l.lookup key = (lru.elem? key).map Element.value := by
  cases helem : lru.elem? key with
  | some elem =>
      obtain ⟨hmem, rfl⟩ := h.consistent.elem?_eq_some_iff.mp helem
      rw [Option.map_some, Lru.lookup_eq_some_iff, h.entries]
      exact List.mem_map_of_mem hmem
  | none =>
      rw [Option.map_none, Lru.lookup_eq_none_iff, h.keys]
      intro hkey
      obtain ⟨elem, hmem, rfl⟩ := List.mem_map.mp hkey
      have hsome := h.consistent.elem?_eq_some_iff.mpr ⟨hmem, rfl⟩
      exact absurd (helem.symm.trans hsome) (by simp)

/-- The other elements are the ones with another key. -/
theorem others (h : Simulates lru l) (hmem : elem ∈ lru.list) :
    (l.erase elem.key).entries =
      (lru.list.filter (·.address ≠ elem.address)).map fun elem => (elem.key, elem.value) := by
  rw [Lru.entries_erase, h.entries, contents, List.filter_map]
  congr 1
  refine List.filter_congr fun other hother => ?_
  have hiff : other.key = elem.key ↔ other.address = elem.address :=
    ⟨fun heq => congrArg Element.address (h.consistent.eq_of_key hmem hother heq),
      fun heq => congrArg Element.key (h.consistent.eq_of_address hmem hother heq)⟩
  simp [hiff]

theorem moveToFront (h : Simulates lru l) (hmem : elem ∈ lru.list) (value : α) :
    Simulates (lru.moveToFront { elem with value }) (l.front elem.key value) where
  consistent :=
    { fresh := by
        intro other hother
        rcases List.mem_cons.mp hother with rfl | hother
        · exact h.consistent.fresh elem hmem
        · exact h.consistent.fresh other (List.mem_of_mem_filter hother)
      distinct := by
        refine List.nodup_cons.mpr ⟨fun haddress => ?_, ?_⟩
        · obtain ⟨other, hother, heq⟩ := List.mem_map.mp haddress
          exact absurd heq (by simpa using List.of_mem_filter hother)
        · exact h.consistent.distinct.sublist (List.filter_sublist.map _)
      listed := by
        intro key address
        refine (h.consistent.listed key address).trans ?_
        constructor
        · rintro ⟨other, hother, rfl, rfl⟩
          by_cases heq : other.address = elem.address
          · obtain rfl := h.consistent.eq_of_address hmem hother heq
            exact ⟨_, List.mem_cons_self, rfl, rfl⟩
          · exact ⟨other, List.mem_cons_of_mem _ (List.mem_filter.mpr ⟨hother, by simpa using heq⟩),
              rfl, rfl⟩
        · rintro ⟨other, hother, rfl, rfl⟩
          rcases List.mem_cons.mp hother with rfl | hother
          · exact ⟨elem, hmem, rfl, rfl⟩
          · exact ⟨other, List.mem_of_mem_filter hother, rfl, rfl⟩ }
  entries := by
    rw [Lru.entries_front, h.others hmem]
    rfl

theorem removeElement (h : Simulates lru l) (hmem : elem ∈ lru.list) :
    Simulates (lru.removeElement elem) (l.erase elem.key) where
  consistent :=
    { fresh := fun other hother => h.consistent.fresh other (List.mem_of_mem_filter hother)
      distinct := h.consistent.distinct.sublist (List.filter_sublist.map _)
      listed := by
        intro key address
        rw [EmbeddingLru.removeElement, Table.get?_delete]
        by_cases hkey : key = elem.key
        · rw [if_pos hkey]
          refine iff_of_false (by simp) ?_
          rintro ⟨other, hother, -, heq⟩
          have hmem' := List.mem_of_mem_filter hother
          obtain rfl := h.consistent.eq_of_key hmem hmem' (heq.trans hkey)
          simpa using List.of_mem_filter hother
        · rw [if_neg hkey]
          refine (h.consistent.listed key address).trans ?_
          constructor
          · rintro ⟨other, hother, rfl, rfl⟩
            have hne : other.address ≠ elem.address := fun heq =>
              hkey (congrArg Element.key (h.consistent.eq_of_address hmem hother heq))
            exact ⟨other, List.mem_filter.mpr ⟨hother, by simpa using hne⟩, rfl, rfl⟩
          · rintro ⟨other, hother, rfl, rfl⟩
            exact ⟨other, List.mem_of_mem_filter hother, rfl, rfl⟩ }
  entries := h.others hmem

theorem pushFront (h : Simulates lru l) (hkey : key ∉ l.keys) (value : α) :
    Simulates (lru.pushFront key value) (l.front key value) where
  consistent :=
    { fresh := by
        intro other hother
        rcases List.mem_cons.mp hother with rfl | hother
        · exact Nat.lt_succ_self _
        · exact Nat.lt_succ_of_lt (h.consistent.fresh other hother)
      distinct := by
        refine List.nodup_cons.mpr ⟨fun haddress => ?_, h.consistent.distinct⟩
        obtain ⟨other, hother, heq⟩ := List.mem_map.mp haddress
        exact absurd heq (h.consistent.fresh other hother).ne
      listed := by
        intro key' address
        rw [EmbeddingLru.pushFront, Table.get?_insert]
        by_cases hkey' : key' = key
        · rw [if_pos hkey']
          constructor
          · intro haddress
            exact ⟨_, List.mem_cons_self, Option.some.inj haddress, hkey'.symm⟩
          · rintro ⟨other, hother, rfl, heq⟩
            rcases List.mem_cons.mp hother with rfl | hother
            · rfl
            · refine absurd (h.keys ▸ List.mem_map_of_mem hother) (?_ : other.key ∉ l.keys)
              rwa [heq, hkey']
        · rw [if_neg hkey']
          refine (h.consistent.listed key' address).trans ?_
          constructor
          · rintro ⟨other, hother, rfl, rfl⟩
            exact ⟨other, List.mem_cons_of_mem _ hother, rfl, rfl⟩
          · rintro ⟨other, hother, rfl, heq⟩
            rcases List.mem_cons.mp hother with rfl | hother
            · exact absurd heq.symm hkey'
            · exact ⟨other, hother, rfl, heq⟩ }
  entries := by
    rw [Lru.entries_front, Lru.erase_of_notMem hkey, h.entries]
    rfl

theorem evictOldest (h : Simulates lru l) : Simulates lru.evictOldest l.evict := by
  rw [EmbeddingLru.evictOldest]
  split
  · rename_i elem hlast
    have hkey : l.keys.getLast? = some elem.key := by
      rw [h.keys, List.getLast?_map, hlast, Option.map_some]
    rw [← Lru.erase_last hkey]
    exact h.removeElement (List.mem_of_getLast? hlast)
  · rename_i hlast
    refine ⟨h.consistent, ?_⟩
    rw [Lru.entries_evict, h.entries, contents, List.getLast?_eq_none_iff.mp hlast]
    rfl

theorem get (h : Simulates lru l) (question embeddingID : String) :
    (lru.get question embeddingID).1 =
        (l.step lru.capacity (.get (buildKey question embeddingID))).1 ∧
      Simulates (lru.get question embeddingID).2
        (l.step lru.capacity (.get (buildKey question embeddingID))).2 := by
  rw [EmbeddingLru.get, Lru.step, h.lookup]
  cases helem : lru.elem? (buildKey question embeddingID) with
  | none => exact ⟨rfl, h⟩
  | some elem =>
      obtain ⟨hmem, hkey⟩ := h.consistent.elem?_eq_some_iff.mp helem
      exact ⟨rfl, hkey ▸ h.moveToFront hmem elem.value⟩

theorem put (h : Simulates lru l) (question embeddingID : String) (embedding : α) :
    Simulates (lru.put question embeddingID embedding)
      (l.step lru.capacity (.put (buildKey question embeddingID) embedding)).2 := by
  rw [EmbeddingLru.put, Lru.step, h.lookup]
  cases helem : lru.elem? (buildKey question embeddingID) with
  | none =>
      have hkey : buildKey question embeddingID ∉ l.keys := by
        rw [← Lru.lookup_eq_none_iff, h.lookup, helem, Option.map_none]
      have hpush := h.pushFront hkey embedding
      have hlength := congrArg List.length hpush.entries
      rw [contents, List.length_map] at hlength
      simp only [Option.map_none, hlength]
      by_cases hroom : lru.capacity <
          (lru.pushFront (buildKey question embeddingID) embedding).list.length
      · rw [if_pos hroom, if_pos (by exact hroom)]
        exact hpush.evictOldest
      · rw [if_neg hroom, if_neg (by exact hroom)]
        exact hpush
  | some elem =>
      obtain ⟨hmem, hkey⟩ := h.consistent.elem?_eq_some_iff.mp helem
      exact hkey ▸ h.moveToFront hmem embedding

theorem remove (h : Simulates lru l) (question embeddingID : String) :
    Simulates (lru.remove question embeddingID) (l.erase (buildKey question embeddingID)) := by
  rw [EmbeddingLru.remove]
  cases helem : lru.elem? (buildKey question embeddingID) with
  | none =>
      refine ⟨h.consistent, ?_⟩
      rw [Lru.erase_of_notMem, h.entries]
      rw [← Lru.lookup_eq_none_iff, h.lookup, helem, Option.map_none]
  | some elem =>
      obtain ⟨hmem, hkey⟩ := h.consistent.elem?_eq_some_iff.mp helem
      exact hkey ▸ h.removeElement hmem

theorem clear (lru : EmbeddingLru α) : Simulates lru.clear Lru.empty where
  consistent :=
    { fresh := fun _ hother => absurd hother List.not_mem_nil
      distinct := List.nodup_nil
      listed := by simp [EmbeddingLru.clear] }
  entries := rfl

theorem step (h : Simulates lru l) (op : Lru.Op (String × String) α) :
    (lru.step op).1 = (l.step lru.capacity (op.mapKey pairKey)).1 ∧
      Simulates (lru.step op).2 (l.step lru.capacity (op.mapKey pairKey)).2 := by
  cases op with
  | get p => exact h.get p.1 p.2
  | put p embedding =>
      exact ⟨(Lru.step_put_fst _ l (pairKey p) embedding).symm, h.put p.1 p.2 embedding⟩
  | remove p => exact ⟨rfl, h.remove p.1 p.2⟩
  | clear => exact ⟨rfl, clear lru⟩

end Simulates

theorem capacity_step (lru : EmbeddingLru α) (op : Lru.Op (String × String) α) :
    (lru.step op).2.capacity = lru.capacity := by
  cases op with
  | get p =>
      rw [step, get]
      split <;> rfl
  | put p embedding =>
      simp only [step, put, evictOldest]
      split
      · rfl
      · split
        · split <;> rfl
        · rfl
  | remove p =>
      simp only [step, remove]
      split <;> rfl
  | clear => rfl

theorem capacity_run (capacity : ℤ) (calls : List (Lru.Op (String × String) α)) :
    (run capacity calls).capacity = capacity := by
  induction calls using List.reverseRecOn with
  | nil => rfl
  | append_singleton calls op ih => rw [run_append_singleton, capacity_step, ih]

/-- The cache is a map from the joined keys, whatever the strings. -/
theorem simulates_run (capacity : ℤ) (calls : List (Lru.Op (String × String) α)) :
    Simulates (run capacity calls) (Lru.run capacity (calls.map (Lru.Op.mapKey pairKey))) := by
  induction calls using List.reverseRecOn with
  | nil => exact Simulates.clear (new capacity)
  | append_singleton calls op ih =>
      have hstep := (ih.step op).2
      rwa [capacity_run, ← Lru.run_append_singleton, ← run_append_singleton,
        ← List.map_singleton, ← List.map_append] at hstep

theorem step_run_fst (capacity : ℤ) (calls : List (Lru.Op (String × String) α))
    (op : Lru.Op (String × String) α) :
    ((run capacity calls).step op).1 =
      ((Lru.run capacity (calls.map (Lru.Op.mapKey pairKey))).step capacity
        (op.mapKey pairKey)).1 := by
  rw [((simulates_run capacity calls).step op).1, capacity_run]

/-! ## A map from pairs -/

/-- In all calls the cache is a bounded map from pairs of a question and an
embedding id. -/
structure RefinesLru (capacity : ℤ) (calls : List (Lru.Op (String × String) α)) : Prop where
  returns : ∀ before op, before ++ [op] <+: calls →
    ((run capacity before).step op).1 = ((Lru.run capacity before).step capacity op).1
  returns_lastPut : ∀ before question embeddingID value,
    before ++ [.get (question, embeddingID)] <+: calls →
      ((run capacity before).get question embeddingID).1 = some value →
        Lru.lastPut (question, embeddingID) before = some value
  contents : ∀ before, before <+: calls →
    (run capacity before).contents =
      (Lru.run capacity before).entries.map (Prod.map pairKey id)
  consistent : ∀ before, before <+: calls → Consistent (run capacity before)
  length_le : ∀ before, before <+: calls →
    (run capacity before).list.length ≤ capacity.toNat

/-- The cache refines the map exactly as long as no call meets the key of another
cached pair, apart from a pair that a `put` evicts at the same time. -/
theorem refinesLru_iff (capacity : ℤ) (calls : List (Lru.Op (String × String) α)) :
    RefinesLru capacity calls ↔
      ∀ before op, before ++ [op] <+: calls →
        Lru.Apart pairKey capacity (Lru.run capacity before) op := by
  rw [← Lru.follows_iff]
  constructor
  · intro h
    refine ⟨fun before op hbefore => ?_, fun before hbefore => ?_⟩
    · rw [← step_run_fst]
      exact h.returns before op hbefore
    · exact (simulates_run capacity before).entries.trans (h.contents before hbefore)
  · intro h
    have hreturns : ∀ before op, before ++ [op] <+: calls →
        ((run capacity before).step op).1 =
          ((Lru.run capacity before).step capacity op).1 := by
      intro before op hbefore
      rw [step_run_fst]
      exact h.returns before op hbefore
    exact
      { returns := hreturns
        returns_lastPut := by
          intro before question embeddingID value hbefore hget
          have hlookup := (hreturns before _ hbefore).symm.trans hget
          rw [Lru.step_get_fst] at hlookup
          exact Lru.lastPut_of_lookup_run hlookup
        contents := fun before hbefore =>
          (simulates_run capacity before).entries.symm.trans (h.holds before hbefore)
        consistent := fun before _ => (simulates_run capacity before).consistent
        length_le := by
          intro before _
          have hlength := Lru.length_run_le capacity (before.map (Lru.Op.mapKey pairKey))
          rwa [(simulates_run capacity before).entries, EmbeddingLru.contents,
            List.length_map] at hlength }

/-- Two pairs with one key: the second gets the embedding of the first. -/
theorem colliding_pairs :
    ¬ RefinesLru 2 [Lru.Op.put ("a::b", "c") [1], Lru.Op.get ("a", "b::c")] := by
  intro h
  exact absurd (h.returns [_] _ List.prefix_rfl) (by decide)

end EmbeddingLru

end RagflowMineru.Search
