import RagflowMineru.Library.Assoc
import Mathlib.Data.List.Infix

/-!
# Nested dictionaries

A value is a scalar, a list, or a dictionary whose entries are values again.  Paths lead through
dictionaries only.  Writing at a path makes the dictionaries that are missing on the way, and two
dictionaries are merged together with the dictionaries in them.
-/

namespace RagflowMineru.Library

inductive Nested (κ σ : Type*) where
  | scalar (s : σ)
  | list (items : List (Nested κ σ))
  | dict (entries : List (κ × Nested κ σ))

namespace Nested

variable {κ σ : Type*}

/-- The names in every dictionary are distinct. -/
inductive WellFormed : Nested κ σ → Prop
  | scalar (s : σ) : WellFormed (.scalar s)
  | list {items : List (Nested κ σ)} (hitems : ∀ v ∈ items, WellFormed v) :
      WellFormed (.list items)
  | dict {entries : List (κ × Nested κ σ)} (hkeys : (Assoc.keys entries).Nodup)
      (hentries : ∀ e ∈ entries, WellFormed e.2) : WellFormed (.dict entries)

theorem WellFormed.keys_nodup {es : Assoc κ (Nested κ σ)} (h : WellFormed (.dict es)) :
    (Assoc.keys es).Nodup := by
  cases h with
  | dict hkeys _ => exact hkeys

theorem WellFormed.entry {es : Assoc κ (Nested κ σ)} (h : WellFormed (.dict es)) :
    ∀ e ∈ es, WellFormed e.2 := by
  cases h with
  | dict _ hentries => exact hentries

theorem wellFormed_nil : WellFormed (.dict [] : Nested κ σ) :=
  .dict List.nodup_nil fun _ he => absurd he List.not_mem_nil

/-- A property of all values, as it carries over from the items and the entries. -/
theorem memInduction {P : Nested κ σ → Prop} (scalar : ∀ s, P (.scalar s))
    (list : ∀ items : List (Nested κ σ), (∀ v ∈ items, P v) → P (.list items))
    (dict : ∀ es : List (κ × Nested κ σ), (∀ e ∈ es, P e.2) → P (.dict es)) :
    ∀ v, P v
  | .scalar s => scalar s
  | .list items => list items fun v _ => memInduction scalar list dict v
  | .dict es => dict es fun e _ => memInduction scalar list dict e.2
termination_by v => sizeOf v
decreasing_by
  · have hlt := List.sizeOf_lt_of_mem ‹v ∈ items›
    rw [Nested.list.sizeOf_spec]
    omega
  · have hlt := List.sizeOf_lt_of_mem ‹e ∈ es›
    obtain ⟨key, v⟩ := e
    rw [Prod.mk.sizeOf_spec] at hlt
    rw [Nested.dict.sizeOf_spec]
    change sizeOf v < _
    omega

/-- No path leads further than to this value. -/
def IsLeaf : Nested κ σ → Prop
  | .dict entries => entries = []
  | _ => True

/-- The entries of what stands somewhere. -/
def entries : Option (Nested κ σ) → Assoc κ (Nested κ σ)
  | some (.dict entries) => entries
  | _ => []

theorem wellFormed_entries {slot : Option (Nested κ σ)} (h : ∀ v ∈ slot, WellFormed v) :
    WellFormed (.dict (entries slot)) := by
  match slot with
  | some (.dict es) => exact h _ rfl
  | some (.scalar _) | some (.list _) | none => exact wellFormed_nil

/-! ## Paths apart from each other -/

section Apart

variable {p q : List κ}

/-- Neither path leads over the end of the other. -/
def Apart (p q : List κ) : Prop := ¬ p <+: q ∧ ¬ q <+: p

theorem Apart.symm (h : Apart p q) : Apart q p := ⟨h.2, h.1⟩

theorem Apart.ne_nil (h : Apart p q) : p ≠ [] := by
  rintro rfl
  exact h.1 List.nil_prefix

theorem Apart.append (h : Apart p q) (r : List κ) : Apart (p ++ r) q := by
  refine ⟨fun hp => h.1 ((List.prefix_append p r).trans hp), fun hq => ?_⟩
  rcases List.prefix_or_prefix_of_prefix hq (List.prefix_append p r) with h' | h'
  · exact h.2 h'
  · exact h.1 h'

theorem Apart.of_cons {key : κ} (h : Apart (key :: p) (key :: q)) : Apart p q :=
  ⟨fun hp => h.1 (List.cons_prefix_cons.mpr ⟨rfl, hp⟩),
    fun hq => h.2 (List.cons_prefix_cons.mpr ⟨rfl, hq⟩)⟩

/-- Entries of one dictionary are apart. -/
theorem apart_of_ne {key key' : κ} (hne : key ≠ key') (p : List κ) :
    Apart (p ++ [key]) (p ++ [key']) := by
  constructor
  · rw [List.prefix_append_right_inj, List.cons_prefix_cons]
    exact fun h => hne h.1
  · rw [List.prefix_append_right_inj, List.cons_prefix_cons]
    exact fun h => hne h.1.symm

end Apart

variable [DecidableEq κ]

/-- The value at a path. -/
def at? : List κ → Nested κ σ → Option (Nested κ σ)
  | [], v => some v
  | key :: path, .dict entries => (Assoc.get? key entries).bind (at? path)
  | _ :: _, _ => none

/-- Write a value at a path. -/
def put : List κ → Nested κ σ → Option (Nested κ σ) → Nested κ σ
  | [], value, _ => value
  | key :: path, value, slot =>
      .dict (Assoc.set key (put path value (Assoc.get? key (entries slot))) (entries slot))

/-- Nothing stands at a path, and nothing but dictionaries on the way to it. -/
def Free : List κ → Option (Nested κ σ) → Prop
  | _, none => True
  | [], some _ => False
  | key :: path, some (.dict entries) => Free path (Assoc.get? key entries)
  | _ :: _, some _ => False

mutual

/-- The value in the place of an old one; a dictionary keeps the entries of an old dictionary. -/
def mergeValue : Nested κ σ → Option (Nested κ σ) → Nested κ σ
  | .dict entries, some (.dict old) => .dict (deepMerge entries old)
  | value, _ => value

/-- Merge entries, one after the other, into a dictionary. -/
def deepMerge : List (κ × Nested κ σ) → Assoc κ (Nested κ σ) → Assoc κ (Nested κ σ)
  | [], old => old
  | (key, value) :: rest, old =>
      deepMerge rest (Assoc.set key (mergeValue value (Assoc.get? key old)) old)

end

/-- What stands somewhere after a merge. -/
def merged : Option (Nested κ σ) → Option (Nested κ σ) → Option (Nested κ σ)
  | none, old => old
  | some value, old => some (mergeValue value old)

/-- All dictionaries merged in their order. -/
def mergeAll (dicts : List (Assoc κ (Nested κ σ))) : Assoc κ (Nested κ σ) :=
  dicts.foldl (fun whole d => deepMerge d whole) []

/-! ## Well-formed values -/

section WellFormed

theorem WellFormed.get? {es : Assoc κ (Nested κ σ)} (h : WellFormed (.dict es)) (key : κ) :
    ∀ v ∈ Assoc.get? key es, WellFormed v :=
  fun _ hv => h.entry _ (Assoc.mem_of_get? hv)

theorem WellFormed.set {es : Assoc κ (Nested κ σ)} (h : WellFormed (.dict es)) (key : κ)
    {value : Nested κ σ} (hvalue : WellFormed value) :
    WellFormed (.dict (Assoc.set key value es)) := by
  refine .dict (Assoc.nodup_keys_set h.keys_nodup key value) fun e he => ?_
  rcases Assoc.mem_set he with he | rfl
  · exact h.entry e he
  · exact hvalue

theorem wellFormed_put {path : List κ} {value : Nested κ σ} (hvalue : WellFormed value)
    {slot : Option (Nested κ σ)} (hslot : ∀ v ∈ slot, WellFormed v) :
    WellFormed (put path value slot) := by
  induction path generalizing slot with
  | nil => exact hvalue
  | cons key path ih =>
      have hentries := wellFormed_entries hslot
      exact hentries.set key (ih (hentries.get? key))

end WellFormed

/-! ## Writing and reading -/

section Put

variable {path q : List κ} {value : Nested κ σ} {slot : Option (Nested κ σ)}

@[simp] theorem free_none (path : List κ) : Free path (none : Option (Nested κ σ)) := by
  cases path <;> exact trivial

/-- What stands on the way to a free path is a dictionary or nothing. -/
theorem Free.get?_entries {key : κ} (h : Free (key :: path) slot) :
    Free path (Assoc.get? key (entries slot)) := by
  match slot with
  | none => exact free_none path
  | some (.dict es) => exact h
  | some (.scalar _) | some (.list _) => exact False.elim h

theorem Free.getD_eq {key : κ} (h : Free (key :: path) slot) :
    slot.getD (.dict []) = .dict (entries slot) := by
  match slot with
  | none | some (.dict es) => rfl
  | some (.scalar _) | some (.list _) => exact False.elim h

theorem Free.entries {key : κ} (h : Free (key :: path) slot) :
    Free (key :: path) (some (.dict (entries slot))) := h.get?_entries

theorem Free.eq_none (h : Free [] slot) : slot = none := by
  cases slot with
  | none => rfl
  | some v => exact False.elim h

/-- Below a free path everything is free. -/
theorem Free.append (h : Free path slot) (q : List κ) : Free (path ++ q) slot := by
  induction path generalizing slot with
  | nil =>
      rw [h.eq_none]
      exact free_none _
  | cons key path ih =>
      match slot with
      | none => exact free_none _
      | some (.dict es) => exact ih h
      | some (.scalar _) | some (.list _) => exact False.elim h

theorem bind_at?_cons {key : κ} (h : Free (key :: path) slot) (key' : κ) (q : List κ) :
    slot.bind (at? (key' :: q)) = (Assoc.get? key' (entries slot)).bind (at? q) := by
  match slot with
  | none => rfl
  | some (.dict es) => rfl
  | some (.scalar _) | some (.list _) => exact False.elim h

theorem bind_at?_of_free (h : Free path slot) (q : List κ) :
    slot.bind (at? (path ++ q)) = none := by
  induction path generalizing slot with
  | nil =>
      rw [h.eq_none]
      rfl
  | cons key path ih => exact (bind_at?_cons h _ _).trans (ih h.get?_entries)

theorem at?_put_append (path q : List κ) (value : Nested κ σ) (slot : Option (Nested κ σ)) :
    (put path value slot).at? (path ++ q) = value.at? q := by
  induction path generalizing slot with
  | nil => rfl
  | cons key path ih =>
      rw [List.cons_append, put, at?, Assoc.get?_set_self]
      exact ih _

/-- Writing at one path leaves what stands at another. -/
theorem at?_put_of_apart (h : Apart path q) (hfree : Free path slot) :
    (put path value slot).at? q = slot.bind (at? q) := by
  induction path generalizing q slot with
  | nil => exact absurd List.nil_prefix h.1
  | cons key path ih =>
      match q with
      | [] => exact absurd List.nil_prefix h.2
      | key' :: q =>
          rw [put, at?, bind_at?_cons hfree]
          by_cases hkey : key' = key
          · subst hkey
            rw [Assoc.get?_set_self]
            exact ih h.of_cons hfree.get?_entries
          · rw [Assoc.get?_set_of_ne hkey]

theorem free_put (h : Apart path q) (hfree : Free q slot) :
    Free q (some (put path value slot)) := by
  induction path generalizing q slot with
  | nil => exact absurd List.nil_prefix h.1
  | cons key path ih =>
      match q with
      | [] => exact absurd List.nil_prefix h.2
      | key' :: q =>
          rw [put, Free]
          by_cases hkey : key' = key
          · subst hkey
            rw [Assoc.get?_set_self]
            exact ih h.of_cons hfree.get?_entries
          · rw [Assoc.get?_set_of_ne hkey]
            exact hfree.get?_entries

/-- Writing below what has been written is writing all of it at once. -/
theorem put_append (path q : List κ) (value value' : Nested κ σ) (slot : Option (Nested κ σ)) :
    put (path ++ q) value (some (put path value' slot)) =
      put path (put q value (some value')) slot := by
  induction path generalizing slot with
  | nil => rfl
  | cons key path ih =>
      rw [List.cons_append, put, put, put, entries, Assoc.get?_set_self, ih, Assoc.set_set]

theorem put_concat (hfree : Free path slot) (key : κ) (value : Nested κ σ) :
    put (path ++ [key]) value slot = put path (.dict [(key, value)]) slot := by
  induction path generalizing slot with
  | nil =>
      rw [hfree.eq_none]
      rfl
  | cons key' path ih =>
      rw [List.cons_append, put, put, ih hfree.get?_entries]

/-- The entries of a dictionary written one after the other. -/
def putEntries (path : List κ) (es : List (κ × Nested κ σ)) (whole : Nested κ σ) : Nested κ σ :=
  es.foldl (fun whole e => put (path ++ [e.1]) e.2 (some whole)) whole

theorem putEntries_put {es rest : Assoc κ (Nested κ σ)}
    (hkeys : (Assoc.keys (es ++ rest)).Nodup) :
    putEntries path rest (put path (.dict es) slot) = put path (.dict (es ++ rest)) slot := by
  induction rest generalizing es with
  | nil => rw [List.append_nil]; rfl
  | cons e rest ih =>
      have hnodup : (Assoc.keys ((es ++ [e]) ++ rest)).Nodup := by
        rwa [List.append_assoc]
      have hnotMem : e.1 ∉ Assoc.keys es := by
        rw [Assoc.keys, List.map_append, List.map_cons, List.nodup_append] at hkeys
        exact fun hmem => hkeys.2.2 _ hmem _ List.mem_cons_self rfl
      have hput : put (path ++ [e.1]) e.2 (some (put path (.dict es) slot)) =
          put path (.dict (es ++ [e])) slot := by
        rw [put_append, put, put, entries, Assoc.set_of_notMem hnotMem]
      calc
        putEntries path (e :: rest) (put path (.dict es) slot) =
            putEntries path rest (put path (.dict (es ++ [e])) slot) := by
          rw [putEntries, List.foldl_cons, hput]
          rfl
        _ = put path (.dict ((es ++ [e]) ++ rest)) slot := ih hnodup
        _ = put path (.dict (es ++ e :: rest)) slot := by rw [List.append_assoc]; rfl

/-- At a free path this writes the dictionary. -/
theorem putEntries_of_free {es : Assoc κ (Nested κ σ)} (hnil : es ≠ [])
    (hkeys : (Assoc.keys es).Nodup) {whole : Nested κ σ} (hfree : Free path (some whole)) :
    putEntries path es whole = put path (.dict es) (some whole) := by
  match es with
  | [] => exact absurd rfl hnil
  | e :: rest =>
      calc
        putEntries path (e :: rest) whole =
            putEntries path rest (put path (.dict [e]) (some whole)) := by
          rw [putEntries, List.foldl_cons, put_concat hfree]
          rfl
        _ = put path (.dict (e :: rest)) (some whole) := putEntries_put hkeys

end Put

/-! ## Merging -/

section Merge

variable {path : List κ} {value : Nested κ σ} {es old : Assoc κ (Nested κ σ)}

@[simp] theorem deepMerge_nil (old : Assoc κ (Nested κ σ)) : deepMerge [] old = old := rfl

@[simp] theorem mergeValue_none (value : Nested κ σ) : mergeValue value none = value := by
  cases value <;> rfl

theorem deepMerge_cons (key : κ) (value : Nested κ σ) (rest old : Assoc κ (Nested κ σ)) :
    deepMerge ((key, value) :: rest) old =
      deepMerge rest (Assoc.set key (mergeValue value (Assoc.get? key old)) old) := rfl

theorem get?_deepMerge (hkeys : (Assoc.keys es).Nodup) (key : κ) (old : Assoc κ (Nested κ σ)) :
    Assoc.get? key (deepMerge es old) = merged (Assoc.get? key es) (Assoc.get? key old) := by
  induction es generalizing old with
  | nil => rfl
  | cons e rest ih =>
      obtain ⟨k, v⟩ := e
      obtain ⟨hk, hrest⟩ := List.nodup_cons.mp hkeys
      rw [deepMerge_cons, ih hrest, Assoc.get?]
      split_ifs with hkey
      · subst hkey
        rw [Assoc.get?_eq_none_iff.mpr hk, Assoc.get?_set_self]
        rfl
      · rw [Assoc.get?_set_of_ne (Ne.symm hkey)]

theorem deepMerge_set_old {key : κ} (hkey : key ∉ Assoc.keys es) (hold : key ∈ Assoc.keys old)
    (value : Nested κ σ) :
    deepMerge es (Assoc.set key value old) = Assoc.set key value (deepMerge es old) := by
  induction es generalizing old with
  | nil => rfl
  | cons e rest ih =>
      obtain ⟨k, v⟩ := e
      obtain ⟨hne, hrest⟩ := not_or.mp (mt List.mem_cons.mpr hkey)
      have hset : key ∈ Assoc.keys (Assoc.set k (mergeValue v (Assoc.get? k old)) old) := by
        rw [Assoc.keys_set]
        split_ifs
        · exact hold
        · exact List.mem_append_left _ hold
      rw [deepMerge_cons, deepMerge_cons, Assoc.get?_set_of_ne (Ne.symm hne),
        Assoc.set_comm (Ne.symm hne) hold, ih hrest hset]

/-- A value written before a merge is merged after it. -/
theorem deepMerge_set (hkeys : (Assoc.keys es).Nodup) (key : κ) (value : Nested κ σ)
    (old : Assoc κ (Nested κ σ)) :
    deepMerge (Assoc.set key value es) old =
      Assoc.set key (mergeValue value (Assoc.get? key old)) (deepMerge es old) := by
  induction es generalizing old with
  | nil => rfl
  | cons e rest ih =>
      obtain ⟨k, v⟩ := e
      obtain ⟨hk, hrest⟩ := List.nodup_cons.mp hkeys
      rw [Assoc.set, deepMerge_cons]
      split_ifs with hkey
      · subst hkey
        have hmem : k ∈ Assoc.keys (Assoc.set k (mergeValue v (Assoc.get? k old)) old) := by
          by_contra hnone
          rw [← Assoc.get?_eq_none_iff, Assoc.get?_set_self] at hnone
          exact Option.some_ne_none _ hnone
        rw [deepMerge_cons, ← deepMerge_set_old hk hmem, Assoc.set_set]
      · rw [deepMerge_cons, ih hrest, Assoc.get?_set_of_ne (Ne.symm hkey)]

theorem free_merged {chunk whole : Option (Nested κ σ)} (hchunk : Free path chunk)
    (hwhole : Free path whole) (hwf : ∀ v ∈ chunk, WellFormed v) :
    Free path (merged chunk whole) := by
  induction path generalizing chunk whole with
  | nil =>
      rw [hchunk.eq_none, hwhole.eq_none]
      exact trivial
  | cons key path ih =>
      match chunk, whole with
      | none, _ => exact hwhole
      | some (.dict es), none => exact hchunk
      | some (.dict es), some (.dict old) =>
          have hes := hwf _ rfl
          rw [merged, mergeValue, Free, get?_deepMerge hes.keys_nodup]
          exact ih hchunk hwhole (hes.get? key)
      | some (.scalar _), _ | some (.list _), _ => exact False.elim hchunk
      | some (.dict _), some (.scalar _) | some (.dict _), some (.list _) =>
          exact False.elim hwhole

/-- What is written into a dictionary before a merge is written into the merged one. -/
theorem mergeValue_put {chunk whole : Option (Nested κ σ)} (hchunk : Free path chunk)
    (hwhole : Free path whole) (hwf : ∀ v ∈ chunk, WellFormed v) :
    mergeValue (put path value chunk) whole = put path value (merged chunk whole) := by
  induction path generalizing chunk whole with
  | nil =>
      rw [hchunk.eq_none, hwhole.eq_none]
      exact mergeValue_none value
  | cons key path ih =>
      have hes := wellFormed_entries hwf
      have hslots := ih hchunk.get?_entries hwhole.get?_entries (hes.get? key)
      match whole with
      | none =>
          have hmerged : merged chunk none = chunk := by
            cases chunk with
            | none => rfl
            | some v => exact congrArg some (mergeValue_none v)
          rw [mergeValue_none, hmerged]
      | some (.dict old) =>
          have hmerged : entries (merged chunk (some (.dict old))) =
              deepMerge (entries chunk) old := by
            match chunk with
            | none => rfl
            | some (.dict es) => rfl
            | some (.scalar _) | some (.list _) => exact False.elim hchunk
          rw [put, put, mergeValue, hmerged, deepMerge_set hes.keys_nodup,
            get?_deepMerge hes.keys_nodup]
          exact congrArg (fun v => dict (Assoc.set key v _)) hslots
      | some (.scalar _) | some (.list _) => exact False.elim hwhole

end Merge

/-! ## Writing into dictionaries -/

section Dicts

variable {path : List κ} {value : Nested κ σ} {d : Assoc κ (Nested κ σ)}
variable {dicts : List (Assoc κ (Nested κ σ))}

/-- Write a value at a path in a dictionary. -/
def putIn (path : List κ) (value : Nested κ σ) (d : Assoc κ (Nested κ σ)) :
    Assoc κ (Nested κ σ) :=
  entries (some (put path value (some (.dict d))))

theorem dict_putIn (hpath : path ≠ []) (value : Nested κ σ) (d : Assoc κ (Nested κ σ)) :
    .dict (putIn path value d) = put path value (some (.dict d)) := by
  match path with
  | [] => exact absurd rfl hpath
  | key :: path => rfl

theorem free_empty (hpath : path ≠ []) : Free path (some (.dict [] : Nested κ σ)) := by
  match path with
  | [] => exact hpath rfl
  | key :: path => exact free_none path

theorem at?_empty (hpath : path ≠ []) : at? path (.dict [] : Nested κ σ) = none := by
  match path with
  | [] => exact absurd rfl hpath
  | key :: path => rfl

theorem mergeAll_concat (dicts : List (Assoc κ (Nested κ σ))) (d : Assoc κ (Nested κ σ)) :
    mergeAll (dicts ++ [d]) = deepMerge d (mergeAll dicts) := by
  rw [mergeAll, List.foldl_append]
  rfl

theorem free_mergeAll (hpath : path ≠ []) (hwf : ∀ d ∈ dicts, WellFormed (.dict d))
    (hfree : ∀ d ∈ dicts, Free path (some (.dict d))) :
    Free path (some (.dict (mergeAll dicts))) := by
  induction dicts using List.reverseRecOn with
  | nil => exact free_empty hpath
  | append_singleton dicts d ih =>
      rw [mergeAll_concat]
      have hd : d ∈ dicts ++ [d] := List.mem_append_right _ List.mem_cons_self
      have hwhole := ih (fun e he => hwf e (List.mem_append_left _ he))
        (fun e he => hfree e (List.mem_append_left _ he))
      have hmerged := free_merged (hfree d hd) hwhole fun v hv => by
        rw [← Option.some.inj hv]
        exact hwf d hd
      exact hmerged

/-- Writing into the last dictionary writes into all of them merged. -/
theorem mergeAll_putIn (hpath : path ≠ []) (hwf : ∀ e ∈ dicts ++ [d], WellFormed (.dict e))
    (hfree : ∀ e ∈ dicts ++ [d], Free path (some (.dict e))) (value : Nested κ σ) :
    .dict (mergeAll (dicts ++ [putIn path value d])) =
      put path value (some (.dict (mergeAll (dicts ++ [d])))) := by
  have hd : d ∈ dicts ++ [d] := List.mem_append_right _ List.mem_cons_self
  have hwhole : Free path (some (.dict (mergeAll dicts))) :=
    free_mergeAll hpath (fun e he => hwf e (List.mem_append_left _ he))
      (fun e he => hfree e (List.mem_append_left _ he))
  calc
    .dict (mergeAll (dicts ++ [putIn path value d])) =
        mergeValue (.dict (putIn path value d)) (some (.dict (mergeAll dicts))) := by
      rw [mergeAll_concat]
      rfl
    _ = mergeValue (put path value (some (.dict d))) (some (.dict (mergeAll dicts))) := by
      rw [dict_putIn hpath]
    _ = put path value (some (.dict (deepMerge d (mergeAll dicts)))) :=
      mergeValue_put (hfree d hd) hwhole fun v hv => by
        rw [← Option.some.inj hv]
        exact hwf d hd
    _ = put path value (some (.dict (mergeAll (dicts ++ [d])))) := by rw [mergeAll_concat]

end Dicts

end Nested

end RagflowMineru.Library
