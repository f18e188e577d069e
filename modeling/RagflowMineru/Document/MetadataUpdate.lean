import RagflowMineru.Library.Assoc
import RagflowMineru.Library.Distinct
import Mathlib.Data.List.GetD

/-!
# Updating the metadata of a document

The metadata of a document maps keys to strings and lists of strings.  An update extends
the lists in place and then puts lists without duplicates in their place.  As long as no
list is at two places, each key gets what is there already and what is new of it.
-/

namespace RagflowMineru.Document

open Library

/-- A string, or what `str` makes of anything else. -/
inductive MetaItem where
  | str (s : String)
  | other (text : String)
  deriving DecidableEq

namespace MetaItem

def text : MetaItem → String
  | str s => s
  | other text => text

def isStr : MetaItem → Bool
  | str _ => true
  | other _ => false

end MetaItem

/-- A value of a dictionary. -/
inductive MetaField where
  | str (s : String)
  | list (items : List MetaItem)
  | other (text : String)
  deriving DecidableEq

/-- A value as the program has it: of a list, where it is. -/
inductive MetaEntry where
  | str (s : String)
  | list (place : ℕ)
  | other (text : String)

def dedupeList (values : List MetaItem) : List MetaItem :=
  (values.foldl (Distinct.scanStep MetaItem.text) ([], [])).2

/-- The lists there are, and the metadata. -/
structure MetaStore where
  heap : List (List MetaItem)
  metadata : Assoc String MetaEntry

namespace MetaStore

def listAt (st : MetaStore) (place : ℕ) : List MetaItem :=
  st.heap.getD place []

/-- `metadata[k] = v`; a list that is assigned is a new one. -/
def assign (st : MetaStore) (k : String) : String ⊕ List MetaItem → MetaStore
  | .inl s => { st with metadata := st.metadata.set k (.str s) }
  | .inr v => ⟨st.heap ++ [v], st.metadata.set k (.list st.heap.length)⟩

def extend (st : MetaStore) (place : ℕ) (v : List MetaItem) : MetaStore :=
  { st with heap := st.heap.modify place (· ++ v) }

/-- What is left of a value of the update; nothing is left of a list without strings. -/
def incoming (st : MetaStore) : MetaEntry → Option (String ⊕ List MetaItem)
  | .str s => some (.inl s)
  | .list place =>
      let v := (st.listAt place).filter MetaItem.isStr
      if v = [] then none else some (.inr (dedupeList v))
  | .other _ => none

/-- One round of the loop over `meta.items()`. -/
def updateKey (st : MetaStore) (item : String × MetaEntry) : MetaStore :=
  match st.incoming item.2 with
  | none => st
  | some v =>
    match Assoc.get? item.1 st.metadata with
    | some (.list place) =>
      let st := st.extend place (v.elim (fun s => [.str s]) id)
      st.assign item.1 (.inr (dedupeList (st.listAt place)))
    | _ => st.assign item.1 v

end MetaStore

/-- New lists for a dictionary, from a place on. -/
def placeLists : ℕ → Assoc String MetaField → List (List MetaItem) × Assoc String MetaEntry
  | _, [] => ([], [])
  | n, (k, .str s) :: rest =>
      let (lists, d) := placeLists n rest
      (lists, (k, .str s) :: d)
  | n, (k, .other text) :: rest =>
      let (lists, d) := placeLists n rest
      (lists, (k, .other text) :: d)
  | n, (k, .list items) :: rest =>
      let (lists, d) := placeLists (n + 1) rest
      (items :: lists, (k, .list n) :: d)

/-- The update as it is given. -/
inductive MetaUpdate where
  | dict (items : Assoc String MetaEntry)
  | text (s : String)
  | other

/-- `update_metadata_to`; `loads` repairs a text to a dictionary, if it can. -/
def updateMetadataTo (loads : String → Option (Assoc String MetaField)) (st : MetaStore) :
    MetaUpdate → MetaStore
  | .dict items => items.foldl MetaStore.updateKey st
  | .text s =>
      if s = "" then st
      else match loads s with
        | none => st
        | some d =>
          let (lists, items) := placeLists st.heap.length d
          items.foldl MetaStore.updateKey { st with heap := st.heap ++ lists }
  | .other => st

/-! ## What an update is for -/

/-- The items of both lists without duplicates, in order. -/
def MetaItem.union (old new : List MetaItem) : List MetaItem :=
  Distinct.firstOccurrences MetaItem.text (old ++ new)

/-- It keeps the order, has no text twice, and has every text of both lists. -/
theorem MetaItem.union_spec (old new : List MetaItem) :
    (MetaItem.union old new).Sublist (old ++ new) ∧
      ((MetaItem.union old new).map MetaItem.text).Nodup ∧
      ∀ t, t ∈ (MetaItem.union old new).map MetaItem.text ↔
        t ∈ old.map MetaItem.text ∨ t ∈ new.map MetaItem.text := by
  refine ⟨Distinct.firstOccurrences_sublist_self _ _, Distinct.nodup_map_firstOccurrences _ _,
    fun t => ?_⟩
  rw [MetaItem.union, Distinct.mem_map_firstOccurrences, List.map_append, List.mem_append]

namespace MetaField

def strings : MetaField → List MetaItem
  | str s => [.str s]
  | list items => items.filter MetaItem.isStr
  | other _ => []

/-- What a key has after an update: a list is united with what is new, anything else is
replaced by it, and nothing changes where there is no string in what is new. -/
def united (old : Option MetaField) (new : MetaField) : Option MetaField :=
  if new.strings = [] then old
  else match old, new with
    | some (list items), _ => some (list (MetaItem.union items new.strings))
    | _, str s => some (str s)
    | _, _ => some (list (MetaItem.union [] new.strings))

theorem united_list (items : List MetaItem) {new : MetaField} (h : new.strings ≠ []) :
    united (some (list items)) new = some (list (MetaItem.union items new.strings)) := by
  rw [united.eq_def, if_neg h]

theorem united_other {old : Option MetaField} (hold : ∀ items, old ≠ some (list items))
    (new : MetaField) : new.strings ≠ [] → united old new =
      match new with
      | str s => some (str s)
      | _ => some (list (MetaItem.union [] new.strings)) := by
  intro h
  rw [united.eq_def, if_neg h]
  rcases old with _ | (_ | items | _)
  · rcases new <;> rfl
  · rcases new <;> rfl
  · exact absurd rfl (hold items)
  · rcases new <;> rfl

theorem united_united (old : Option MetaField) (new : MetaField) :
    united (united old new) new = united old new := by
  have hunion := Distinct.firstOccurrences_union_union MetaItem.text
  have hnew := hunion []
  simp only [List.nil_append] at hnew
  by_cases hstrings : new.strings = []
  · simp only [united, if_pos hstrings]
  · rcases old with _ | (_ | items | _) <;> rcases new with _ | _ | _ <;>
      simp [united, MetaItem.union, hunion, hnew, hstrings]

end MetaField

/-! ## The lists apart -/

def MetaEntry.field (heap : List (List MetaItem)) : MetaEntry → MetaField
  | str s => .str s
  | list place => .list (heap.getD place [])
  | other text => .other text

theorem dedupeList_eq (values : List MetaItem) :
    dedupeList values = Distinct.firstOccurrences MetaItem.text values :=
  (Distinct.foldl_scanStep MetaItem.text values).2

namespace MetaStore

def value (st : MetaStore) (k : String) : Option MetaField :=
  (Assoc.get? k st.metadata).map (MetaEntry.field st.heap)

/-- No list of the metadata is at two keys, or in the update. -/
structure Unshared (st : MetaStore) (items : Assoc String MetaEntry) : Prop where
  distinct : ∀ {k k' place}, Assoc.get? k st.metadata = some (.list place) →
    Assoc.get? k' st.metadata = some (.list place) → k = k'
  valid : ∀ {k place}, Assoc.get? k st.metadata = some (.list place) → place < st.heap.length
  apart : ∀ {item place}, item ∈ items → item.2 = .list place → place < st.heap.length ∧
    ∀ k, Assoc.get? k st.metadata ≠ some (.list place)

/-- What is brought to a key: the strings of the update without duplicates. -/
theorem incoming_eq (st : MetaStore) (entry : MetaEntry) :
    st.incoming entry =
      if (entry.field st.heap).strings = [] then none
      else match entry with
        | .str s => some (.inl s)
        | _ => some (.inr (MetaItem.union [] (entry.field st.heap).strings)) := by
  rcases entry with s | place | text
  · rfl
  · simp only [incoming, MetaEntry.field, MetaField.strings, dedupeList_eq]
    rfl
  · rfl

theorem getD_modify_of_ne {heap : List (List MetaItem)} {place other : ℕ} (h : place ≠ other)
    (f : List MetaItem → List MetaItem) :
    (heap.modify other f).getD place [] = heap.getD place [] := by
  simp [List.getD_eq_getElem?_getD, Ne.symm h]

theorem getD_concat {heap : List (List MetaItem)} (v : List MetaItem) {place : ℕ}
    (h : place < heap.length) : (heap ++ [v]).getD place [] = heap.getD place [] := by
  simp [List.getD_eq_getElem?_getD, List.getElem?_append_left h]

theorem getD_length_concat (heap : List (List MetaItem)) (v : List MetaItem) :
    (heap ++ [v]).getD heap.length [] = v := by
  simp [List.getD_eq_getElem?_getD]

/-- What a round makes of a list: its extension is thinned out to a new list. -/
theorem updateKey_list {st : MetaStore} {item : String × MetaEntry} {v : String ⊕ List MetaItem}
    (hv : st.incoming item.2 = some v) {place : ℕ}
    (hget : Assoc.get? item.1 st.metadata = some (.list place)) (hplace : place < st.heap.length) :
    st.updateKey item =
      ⟨st.heap.modify place (· ++ v.elim (fun s => [.str s]) id) ++
        [MetaItem.union (st.listAt place) (v.elim (fun s => [.str s]) id)],
        st.metadata.set item.1 (.list st.heap.length)⟩ := by
  rw [updateKey, hv]
  dsimp only
  rw [hget]
  dsimp only
  have hlist : (st.extend place (v.elim (fun s => [.str s]) id)).listAt place =
      st.listAt place ++ v.elim (fun s => [.str s]) id := by
    simp [extend, listAt, List.getD_eq_getElem?_getD, List.getElem?_eq_getElem hplace]
  rw [dedupeList_eq, hlist, assign, extend, List.length_modify]
  rfl

theorem updateKey_other {st : MetaStore} {item : String × MetaEntry} {v : String ⊕ List MetaItem}
    (hv : st.incoming item.2 = some v)
    (hget : ∀ place, Assoc.get? item.1 st.metadata ≠ some (.list place)) :
    st.updateKey item = st.assign item.1 v := by
  rw [updateKey, hv]
  dsimp only
  split
  · rename_i place hplace
    exact absurd hplace (hget place)
  · rfl

/-- A round has put `entry` at its key: it stands for what unites there, a list being a new one,
and of the other lists only the one that was there may have changed. -/
structure Updated (st : MetaStore) (item : String × MetaEntry) (heap : List (List MetaItem))
    (entry : MetaEntry) : Prop where
  eq : st.updateKey item = ⟨heap, st.metadata.set item.1 entry⟩
  length_le : st.heap.length ≤ heap.length
  frame : ∀ place < st.heap.length, Assoc.get? item.1 st.metadata ≠ some (.list place) →
    heap.getD place [] = st.heap.getD place []
  fresh : ∀ place, entry = .list place → place = st.heap.length ∧ place < heap.length
  united : MetaField.united (st.value item.1) (item.2.field st.heap) = some (entry.field heap)

/-- A list at the key is extended, and a new one without duplicates takes its place. -/
theorem updated_of_list {st : MetaStore} {item : String × MetaEntry} {place : ℕ}
    (hget : Assoc.get? item.1 st.metadata = some (.list place)) (hplace : place < st.heap.length)
    (hstrings : (item.2.field st.heap).strings ≠ []) :
    ∃ heap entry, Updated st item heap entry := by
  have hincoming := st.incoming_eq item.2
  rw [if_neg hstrings] at hincoming
  obtain ⟨v, hv, hitems⟩ : ∃ v, st.incoming item.2 = some v ∧
      ∀ l, MetaItem.union l (v.elim (fun s => [.str s]) id) =
        MetaItem.union l (item.2.field st.heap).strings := by
    rcases hitem : item.2 with s | place | text
    · exact ⟨.inl s, by rw [hitem] at hincoming; exact hincoming, fun l => rfl⟩
    · refine ⟨_, by rw [hitem] at hincoming; exact hincoming, fun l => ?_⟩
      exact Distinct.firstOccurrences_append_firstOccurrences MetaItem.text l _
    · rw [hitem] at hstrings
      exact absurd rfl hstrings
  have hvalue : st.value item.1 = some (.list (st.listAt place)) := by
    rw [MetaStore.value, hget]
    rfl
  refine ⟨_, _, updateKey_list hv hget hplace, ?_, ?_, ?_, ?_⟩
  · simp
  · intro other hother hne
    have hne' : other ≠ place := by
      rintro rfl
      exact hne hget
    rw [getD_concat _ (by rwa [List.length_modify]), getD_modify_of_ne hne']
  · rintro _ ⟨⟩
    simp
  · rw [hvalue, MetaField.united_list _ hstrings, MetaEntry.field, hitems,
      ← List.length_modify (· ++ v.elim (fun s => [.str s]) id) st.heap place,
      getD_length_concat]

/-- Anything else at the key is replaced by the string or the strings. -/
theorem updated_of_not_list {st : MetaStore} {item : String × MetaEntry}
    (hlist : ∀ place, Assoc.get? item.1 st.metadata ≠ some (.list place))
    (hstrings : (item.2.field st.heap).strings ≠ []) :
    ∃ heap entry, Updated st item heap entry := by
  have hincoming := st.incoming_eq item.2
  rw [if_neg hstrings] at hincoming
  have hvalue : ∀ items, st.value item.1 ≠ some (.list items) := by
    intro items h
    rw [MetaStore.value, Option.map_eq_some_iff] at h
    obtain ⟨entry, hget, hentry⟩ := h
    rcases entry with s | place | text
    · cases hentry
    · exact hlist place hget
    · cases hentry
  have hunited := MetaField.united_other hvalue _ hstrings
  rcases hitem : item.2 with s | place | text
  · rw [hitem] at hincoming
    refine ⟨st.heap, .str s, ?_, Nat.le_refl _, fun _ _ _ => rfl, fun _ h => (by cases h), ?_⟩
    · rw [updateKey_other (by rw [hitem]; exact hincoming) hlist]
      rfl
    · rw [hunited, hitem]
      rfl
  · rw [hitem] at hincoming
    refine ⟨_, .list st.heap.length,
      updateKey_other (by rw [hitem]; exact hincoming) hlist, ?_, ?_, ?_, ?_⟩
    · simp
    · intro other hother _
      exact getD_concat _ hother
    · rintro _ ⟨⟩
      simp
    · rw [hunited, hitem]
      dsimp only [MetaEntry.field]
      rw [getD_length_concat]
  · rw [hitem] at hstrings
    exact absurd rfl hstrings

/-- What a round does: nothing, where the incoming value has no strings, or an update. -/
theorem updateKey_cases (st : MetaStore) (item : String × MetaEntry)
    (hvalid : ∀ place, Assoc.get? item.1 st.metadata = some (.list place) →
      place < st.heap.length) :
    (MetaField.united (st.value item.1) (item.2.field st.heap) = st.value item.1 ∧
        st.updateKey item = st) ∨ ∃ heap entry, Updated st item heap entry := by
  by_cases hstrings : (item.2.field st.heap).strings = []
  · left
    have hincoming := st.incoming_eq item.2
    rw [if_pos hstrings] at hincoming
    rw [updateKey, hincoming]
    exact ⟨if_pos hstrings, rfl⟩
  right
  by_cases hlist : ∃ place, Assoc.get? item.1 st.metadata = some (.list place)
  · obtain ⟨place, hget⟩ := hlist
    exact updated_of_list hget (hvalid place hget) hstrings
  · push Not at hlist
    exact updated_of_not_list hlist hstrings

variable {st : MetaStore} {items : Assoc String MetaEntry}

theorem Unshared.updateKey (h : st.Unshared items) (item : String × MetaEntry) :
    (st.updateKey item).Unshared items := by
  rcases updateKey_cases st item fun _ => h.valid with
    ⟨-, heq⟩ | ⟨heap, entry, heq, hlength, -, hplace, -⟩
  · rwa [heq]
  rw [heq]
  -- a list of the metadata is one from before or the new one
  have hget : ∀ {k place}, Assoc.get? k (st.metadata.set item.1 entry) = some (.list place) →
      (k = item.1 ∧ place = st.heap.length ∧ place < heap.length) ∨
        k ≠ item.1 ∧ Assoc.get? k st.metadata = some (.list place) := by
    intro k place hk
    by_cases hkey : k = item.1
    · subst hkey
      rw [Assoc.get?_set_self] at hk
      exact Or.inl ⟨rfl, hplace place (Option.some.inj hk)⟩
    · rw [Assoc.get?_set_of_ne hkey] at hk
      exact Or.inr ⟨hkey, hk⟩
  refine ⟨fun hk hk' => ?_, fun hk => ?_, fun hitem heq' => ?_⟩
  · rcases hget hk with ⟨rfl, hnew, -⟩ | ⟨-, hold⟩ <;>
      rcases hget hk' with ⟨rfl, hnew', -⟩ | ⟨-, hold'⟩
    · rfl
    · exact absurd (h.valid hold') (by omega)
    · exact absurd (h.valid hold) (by omega)
    · exact h.distinct hold hold'
  · rcases hget hk with ⟨-, -, hlt⟩ | ⟨-, hold⟩
    · exact hlt
    · exact Nat.lt_of_lt_of_le (h.valid hold) hlength
  · obtain ⟨hlt, hnot⟩ := h.apart hitem heq'
    refine ⟨Nat.lt_of_lt_of_le hlt hlength, fun k hk => ?_⟩
    rcases hget hk with ⟨-, hnew, -⟩ | ⟨-, hold⟩
    · omega
    · exact hnot k hold

/-- The values of the update stay what they are. -/
theorem Unshared.field_updateKey (h : st.Unshared items) (item : String × MetaEntry)
    {other : String × MetaEntry} (hother : other ∈ items) :
    other.2.field (st.updateKey item).heap = other.2.field st.heap := by
  rcases updateKey_cases st item fun _ => h.valid with ⟨-, heq⟩ | ⟨heap, entry, heq, -, hsame, -⟩
  · rw [heq]
  · rw [heq]
    rcases hentry : other.2 with s | place | text
    · rfl
    · obtain ⟨hlt, hnot⟩ := h.apart hother hentry
      exact congrArg MetaField.list (hsame place hlt (hnot item.1))
    · rfl

/-- Only the value of the key changes. -/
theorem Unshared.value_updateKey (h : st.Unshared items) (item : String × MetaEntry) (k : String) :
    (st.updateKey item).value k =
      if k = item.1 then MetaField.united (st.value item.1) (item.2.field st.heap)
      else st.value k := by
  rcases updateKey_cases st item fun _ => h.valid with
    ⟨hsame, heq⟩ | ⟨heap, entry, heq, -, hsame, -, hunited⟩
  · rw [heq]
    split_ifs with hkey
    · rw [hsame, hkey]
    · rfl
  · rw [heq, MetaStore.value]
    split_ifs with hkey
    · rw [hkey, Assoc.get?_set_self, hunited, Option.map_some]
    · rw [Assoc.get?_set_of_ne hkey, MetaStore.value]
      refine Option.map_congr fun other hother => ?_
      rcases other with s | place | text
      · rfl
      · refine congrArg MetaField.list (hsame place (h.valid hother) fun hitem => ?_)
        exact hkey (h.distinct hother hitem)
      · rfl

theorem keys_updateKey (h : st.Unshared items) (item : String × MetaEntry) :
    (∀ k ∈ st.metadata.keys, k ∈ (st.updateKey item).metadata.keys) ∧
      (MetaField.united (st.value item.1) (item.2.field st.heap) = st.value item.1 →
        (st.updateKey item).metadata.keys = st.metadata.keys) := by
  rcases updateKey_cases st item fun _ => h.valid with
    ⟨-, heq⟩ | ⟨heap, entry, heq, -, -, -, hunited⟩
  · rw [heq]
    exact ⟨fun k hk => hk, fun _ => rfl⟩
  · rw [heq, Assoc.keys_set]
    constructor
    · intro k hk
      split_ifs
      · exact hk
      · exact List.mem_append_left _ hk
    · intro hvalue
      rw [if_pos]
      by_contra hkey
      rw [hunited, MetaStore.value, Assoc.get?_eq_none_iff.mpr hkey] at hvalue
      cases hvalue

/-! ## Runs -/

theorem Unshared.mono {items' : Assoc String MetaEntry} (h : st.Unshared items)
    (hsub : ∀ item ∈ items', item ∈ items) : st.Unshared items' :=
  ⟨h.distinct, h.valid, fun hitem => h.apart (hsub _ hitem)⟩

/-- An update goes through all keys, and unites each with what it is updated by. -/
theorem Unshared.run (h : st.Unshared items) {rest : Assoc String MetaEntry}
    (hsub : ∀ item ∈ rest, item ∈ items) (hkeys : rest.keys.Nodup) :
    (rest.foldl MetaStore.updateKey st).Unshared items ∧
      (∀ other ∈ items, other.2.field (rest.foldl MetaStore.updateKey st).heap =
        other.2.field st.heap) ∧
      (∀ k ∈ st.metadata.keys, k ∈ (rest.foldl MetaStore.updateKey st).metadata.keys) ∧
      ∀ k, (rest.foldl MetaStore.updateKey st).value k =
        match Assoc.get? k rest with
        | none => st.value k
        | some entry => MetaField.united (st.value k) (entry.field st.heap) := by
  induction rest generalizing st with
  | nil => exact ⟨h, fun _ _ => rfl, fun _ hk => hk, fun _ => rfl⟩
  | cons item rest ih =>
      obtain ⟨hitem, hrest⟩ := List.forall_mem_cons.mp hsub
      obtain ⟨hnew, hnodup⟩ := List.nodup_cons.mp hkeys
      obtain ⟨hunshared, hfields, hmono, hvalues⟩ := ih (h.updateKey item) hrest hnodup
      rw [List.foldl_cons]
      refine ⟨hunshared, fun other hother => ?_, fun k hk => ?_, fun k => ?_⟩
      · rw [hfields other hother, h.field_updateKey item hother]
      · exact hmono k ((keys_updateKey h item).1 k hk)
      · rw [hvalues, h.value_updateKey]
        by_cases hkey : k = item.1
        · have hnone : Assoc.get? k rest = none := Assoc.get?_eq_none_iff.mpr (hkey ▸ hnew)
          rw [hnone, Assoc.get?, if_pos hkey.symm]
          dsimp only
          rw [if_pos hkey, hkey]
        · rw [Assoc.get?, if_neg (Ne.symm hkey), if_neg hkey]
          rcases hget : Assoc.get? k rest with _ | entry
          · rfl
          · have hmem := hrest _ (Assoc.mem_of_get? hget)
            dsimp only
            rw [h.field_updateKey item hmem]

/-- Where everything is united already, no key is added. -/
theorem Unshared.run_again (h : st.Unshared items) {rest : Assoc String MetaEntry}
    (hsub : ∀ item ∈ rest, item ∈ items)
    (hunited : ∀ item ∈ rest, MetaField.united (st.value item.1) (item.2.field st.heap) =
      st.value item.1) :
    (rest.foldl MetaStore.updateKey st).metadata.keys = st.metadata.keys := by
  induction rest generalizing st with
  | nil => rfl
  | cons item rest ih =>
      obtain ⟨hitem, hrest⟩ := List.forall_mem_cons.mp hsub
      obtain ⟨hfirst, hothers⟩ := List.forall_mem_cons.mp hunited
      have hvalues : ∀ k, (st.updateKey item).value k = st.value k := by
        intro k
        rw [h.value_updateKey]
        split_ifs with hkey
        · rw [hfirst, hkey]
        · rfl
      rw [List.foldl_cons, ih (h.updateKey item) hrest, (keys_updateKey h item).2 hfirst]
      intro other hother
      rw [hvalues, h.field_updateKey item (hrest other hother)]
      exact hothers other hother

end MetaStore

/-! ## Dictionaries of their own -/

/-- The lists are at the places from `n` on, each at one key, and have the items of the
dictionary. -/
structure Placed (n : ℕ) (lists : List (List MetaItem)) (entries : Assoc String MetaEntry)
    (d : Assoc String MetaField) : Prop where
  keys : entries.keys = d.keys
  places : ∀ {item place}, item ∈ entries → item.2 = .list place →
    n ≤ place ∧ place < n + lists.length
  distinct : ∀ {k k' place}, Assoc.get? k entries = some (.list place) →
    Assoc.get? k' entries = some (.list place) → k = k'
  fields : ∀ heap : List (List MetaItem), (∀ i < lists.length,
    heap.getD (n + i) [] = lists.getD i []) →
      ∀ k, (Assoc.get? k entries).map (MetaEntry.field heap) = Assoc.get? k d

theorem Placed.cons_plain {n : ℕ} {lists : List (List MetaItem)} {entries : Assoc String MetaEntry}
    {d : Assoc String MetaField} (h : Placed n lists entries d) (k : String) {entry : MetaEntry}
    {f : MetaField} (hentry : ∀ place, entry ≠ .list place)
    (hfield : ∀ heap, entry.field heap = f) :
    Placed n lists ((k, entry) :: entries) ((k, f) :: d) where
  keys := congrArg (k :: ·) h.keys
  places hitem heq := by
    rcases List.mem_cons.mp hitem with rfl | hitem
    · exact absurd heq (hentry _)
    · exact h.places hitem heq
  distinct {k₁ k₂ place} h₁ h₂ := by
    rw [Assoc.get?] at h₁ h₂
    split_ifs at h₁ h₂ with hk₁ hk₂ hk₂
    · exact absurd (Option.some.inj h₁) (hentry _)
    · exact absurd (Option.some.inj h₁) (hentry _)
    · exact absurd (Option.some.inj h₂) (hentry _)
    · exact h.distinct h₁ h₂
  fields heap hheap key := by
    rw [Assoc.get?, Assoc.get?]
    split_ifs
    · rw [Option.map_some, hfield]
    · exact h.fields heap hheap key

theorem Placed.cons_list {n : ℕ} {lists : List (List MetaItem)} {entries : Assoc String MetaEntry}
    {d : Assoc String MetaField} (h : Placed (n + 1) lists entries d) (k : String)
    (items : List MetaItem) :
    Placed n (items :: lists) ((k, .list n) :: entries) ((k, .list items) :: d) where
  keys := congrArg (k :: ·) h.keys
  places {item place} hitem heq := by
    rw [List.length_cons]
    rcases List.mem_cons.mp hitem with rfl | hitem
    · obtain rfl := MetaEntry.list.inj heq
      omega
    · have hplaces := h.places hitem heq
      omega
  distinct {k₁ k₂ place} h₁ h₂ := by
    have hlater : ∀ {k' : String}, Assoc.get? k' entries ≠ some (.list n) := by
      intro k' hk'
      have hplaces := h.places (Assoc.mem_of_get? hk') rfl
      omega
    rw [Assoc.get?] at h₁ h₂
    split_ifs at h₁ h₂ with hk₁ hk₂ hk₂
    · exact hk₁.symm.trans hk₂
    · obtain rfl := MetaEntry.list.inj (Option.some.inj h₁)
      exact absurd h₂ hlater
    · obtain rfl := MetaEntry.list.inj (Option.some.inj h₂)
      exact absurd h₁ hlater
    · exact h.distinct h₁ h₂
  fields heap hheap key := by
    have hfirst := hheap 0 (Nat.succ_pos _)
    rw [Nat.add_zero, List.getD_cons_zero] at hfirst
    rw [Assoc.get?, Assoc.get?]
    split_ifs
    · rw [Option.map_some, MetaEntry.field, hfirst]
    · refine h.fields heap (fun i hi => ?_) key
      have hnext := hheap (i + 1) (Nat.succ_lt_succ hi)
      rwa [List.getD_cons_succ, ← Nat.add_assoc, Nat.add_right_comm] at hnext

theorem placed_placeLists (n : ℕ) (d : Assoc String MetaField) :
    Placed n (placeLists n d).1 (placeLists n d).2 d := by
  induction d generalizing n with
  | nil => exact ⟨rfl, by simp [placeLists], by simp [placeLists], fun _ _ _ => rfl⟩
  | cons item rest ih =>
      obtain ⟨k, s | items | text⟩ := item
      · exact (ih n).cons_plain k (fun _ h => by cases h) fun _ => rfl
      · exact (ih (n + 1)).cons_list k items
      · exact (ih n).cons_plain k (fun _ h => by cases h) fun _ => rfl

/-- The metadata and an update, with a list of its own for each list. -/
def loaded (metadata items : Assoc String MetaField) : MetaStore × Assoc String MetaEntry :=
  let (lists, entries) := placeLists 0 metadata
  let (lists', entries') := placeLists lists.length items
  (⟨lists ++ lists', entries⟩, entries')

theorem loaded_spec (metadata items : Assoc String MetaField) :
    (loaded metadata items).1.Unshared (loaded metadata items).2 ∧
      (loaded metadata items).1.metadata.keys = metadata.keys ∧
      (loaded metadata items).2.keys = items.keys ∧
      (∀ k, (loaded metadata items).1.value k = Assoc.get? k metadata) ∧
      ∀ k, (Assoc.get? k (loaded metadata items).2).map
        (MetaEntry.field (loaded metadata items).1.heap) = Assoc.get? k items := by
  have hentries := placed_placeLists 0 metadata
  have hitems := placed_placeLists (placeLists 0 metadata).1.length items
  refine ⟨⟨fun h h' => hentries.distinct h h', fun h => ?_, fun hitem heq => ?_⟩, hentries.keys,
    hitems.keys, hentries.fields _ ?_, hitems.fields _ ?_⟩
  · have hplace := (hentries.places (Assoc.mem_of_get? h) rfl).2
    rw [loaded, List.length_append]
    omega
  · obtain ⟨hge, hlt⟩ := hitems.places hitem heq
    refine ⟨by rw [loaded, List.length_append]; exact hlt, fun k h => ?_⟩
    have hplace := (hentries.places (Assoc.mem_of_get? h) rfl).2
    omega
  · intro i hi
    rw [loaded, Nat.zero_add, List.getD_append _ _ _ _ hi]
  · intro i hi
    rw [loaded, List.getD_append_right _ _ _ _ (Nat.le_add_right _ _), Nat.add_sub_cancel_left]

/-! ## The law -/

/-- The update twice does what it does once: all keys stay, and each has its value united with what
is new. -/
theorem updateMetadataTo_spec (loads : String → Option (Assoc String MetaField))
    (metadata items : Assoc String MetaField) (hkeys : items.keys.Nodup) :
    let update := fun st => updateMetadataTo loads st (.dict (loaded metadata items).2)
    let once := update (loaded metadata items).1
    (∀ k ∈ metadata.keys, k ∈ once.metadata.keys) ∧
      ((update once).metadata.keys = once.metadata.keys ∧
        ∀ k, (update once).value k = once.value k) ∧
      ∀ k, once.value k =
        match Assoc.get? k items with
        | none => Assoc.get? k metadata
        | some new => MetaField.united (Assoc.get? k metadata) new := by
  obtain ⟨hunshared, hmetadata, hitems, hvalues, hnew⟩ := loaded_spec metadata items
  have hnodup : (loaded metadata items).2.keys.Nodup := by rwa [hitems]
  obtain ⟨hagain, hfields, hkept, honce⟩ := hunshared.run (fun _ h => h) hnodup
  obtain ⟨-, -, -, htwice⟩ := hagain.run (fun _ h => h) hnodup
  dsimp only [updateMetadataTo]
  have hvalue : ∀ item ∈ (loaded metadata items).2,
      ((loaded metadata items).2.foldl MetaStore.updateKey (loaded metadata items).1).value item.1 =
        MetaField.united ((loaded metadata items).1.value item.1)
          (item.2.field (loaded metadata items).1.heap) := by
    intro item hitem
    rw [honce, Assoc.get?_of_mem hnodup hitem]
  refine ⟨?_, ⟨?_, fun k => ?_⟩, fun k => ?_⟩
  · rwa [← hmetadata]
  · apply hagain.run_again fun _ h => h
    intro item hitem
    rw [hvalue item hitem, hfields item hitem, MetaField.united_united]
  · rw [htwice]
    rcases hget : Assoc.get? k (loaded metadata items).2 with _ | entry
    · rfl
    · have hmem := Assoc.mem_of_get? hget
      dsimp only
      rw [hfields _ hmem, hvalue _ hmem, MetaField.united_united]
  · rw [honce, hvalues, ← hnew]
    rcases Assoc.get? k (loaded metadata items).2 with _ | entry
    · rfl
    · rfl

/-- A list of authors is united, and a string of tags replaced. -/
theorem updateMetadataTo_authors :
    let metadata : Assoc String MetaField :=
      [("author", .list [.str "a", .str "b"]), ("tags", .str "x")]
    let items : Assoc String MetaField := [("author", .str "c"), ("tags", .list [.str "y"])]
    let update := fun st => updateMetadataTo (fun _ => none) st (.dict (loaded metadata items).2)
    let once := update (loaded metadata items).1
    (∀ k ∈ metadata.keys, k ∈ once.metadata.keys) ∧
      ((update once).metadata.keys = once.metadata.keys ∧
        ∀ k, (update once).value k = once.value k) ∧
      ∀ k, once.value k =
        match Assoc.get? k items with
        | none => Assoc.get? k metadata
        | some new => MetaField.united (Assoc.get? k metadata) new :=
  updateMetadataTo_spec _ _ _ (by decide)

/-- A string is not united with a list: it is lost. -/
theorem not_united_with_string :
    ¬ ∀ (metadata items : Assoc String MetaField) (k : String) (old new : MetaField),
      Assoc.get? k metadata = some old → Assoc.get? k items = some new →
      (∃ l, old = .list l) ∨ (∃ l, new = .list l) →
      (updateMetadataTo (fun _ => none) (loaded metadata items).1
        (.dict (loaded metadata items).2)).value k =
          some (.list (MetaItem.union old.strings new.strings)) := by
  intro h
  have hlost := h [("a", .str "x")] [("a", .list [.str "y"])] "a" (.str "x") (.list [.str "y"])
    rfl rfl (Or.inr ⟨_, rfl⟩)
  exact absurd hlost (by decide)

end RagflowMineru.Document
