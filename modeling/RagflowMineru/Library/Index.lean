import Mathlib.Data.List.Nodup

/-!
# Lists that index a partial map

An entry of the list stands for a key and tells its value.  A change of the map
is carried over to the list by dropping some entries and adding others.
-/

namespace RagflowMineru.Library

variable {χ κ δ : Type*} {key : χ → κ} {value : χ → δ} {get get' : κ → Option δ}
  {entries stay new : List χ} {added : κ → Prop}

/-- The entries stand one to one for the keys with a value, and tell this value. -/
structure Indexes (key : χ → κ) (value : χ → δ) (entries : List χ) (get : κ → Option δ) :
    Prop where
  nodup : (entries.map key).Nodup
  get_iff : ∀ k d, get k = some d ↔ ∃ c ∈ entries, key c = k ∧ value c = d

/-- The entries that stay are right about the new map, none of them is added again, and
every other key is added. -/
structure Fits (key : χ → κ) (value : χ → δ) (stay : List χ) (added : κ → Prop)
    (get : κ → Option δ) : Prop where
  fresh : ∀ c ∈ stay, ¬ added (key c)
  right : ∀ c ∈ stay, get (key c) = some (value c)
  covered : ∀ k d, get k = some d → k ∈ stay.map key ∨ added k

theorem indexes_none_iff : Indexes key value entries (fun _ => none) ↔ entries = [] := by
  constructor
  · intro h
    refine List.eq_nil_iff_forall_not_mem.mpr fun c hc => ?_
    cases (h.get_iff (key c) (value c)).mpr ⟨c, hc, rfl, rfl⟩
  · rintro rfl
    exact ⟨List.nodup_nil, by simp⟩

theorem Indexes.get_key (h : Indexes key value entries get) {c : χ} (hc : c ∈ entries) :
    get (key c) = some (value c) :=
  (h.get_iff _ _).mpr ⟨c, hc, rfl, rfl⟩

theorem Indexes.mem_of_get (h : Indexes key value entries get) {k : κ} {d : δ}
    (hget : get k = some d) : k ∈ entries.map key := by
  obtain ⟨c, hc, rfl, -⟩ := (h.get_iff k d).mp hget
  exact List.mem_map_of_mem hc

/-- Entries for right values are added to entries that stay. -/
theorem indexes_append_iff (hstay : (stay.map key).Nodup)
    (hnew : ∀ c ∈ new, get (key c) = some (value c)) :
    Indexes key value (stay ++ new) get ↔
      (new.map key).Nodup ∧ Fits key value stay (· ∈ new.map key) get := by
  constructor
  · intro h
    have hnodup := h.nodup
    rw [List.map_append, List.nodup_append] at hnodup
    obtain ⟨-, honce, hapart⟩ := hnodup
    refine ⟨honce, fun c hc hmem => ?_, fun c hc => ?_, fun k d hget => ?_⟩
    · exact hapart _ (List.mem_map_of_mem hc) _ hmem rfl
    · exact h.get_key (List.mem_append_left _ hc)
    · exact List.mem_append.mp (List.map_append ▸ h.mem_of_get hget)
  · rintro ⟨honce, h⟩
    have hright : ∀ c ∈ stay ++ new, get (key c) = some (value c) := fun c hc =>
      (List.mem_append.mp hc).elim (h.right c) (hnew c)
    refine ⟨?_, fun k d => ⟨fun hget => ?_, ?_⟩⟩
    · rw [List.map_append, List.nodup_append]
      refine ⟨hstay, honce, ?_⟩
      rintro _ hk _ hk' rfl
      obtain ⟨c, hc, rfl⟩ := List.mem_map.mp hk
      exact h.fresh c hc hk'
    · have hmem : k ∈ (stay ++ new).map key := by
        rw [List.map_append, List.mem_append]
        exact h.covered k d hget
      obtain ⟨c, hc, rfl⟩ := List.mem_map.mp hmem
      exact ⟨c, hc, rfl, Option.some.inj ((hright c hc).symm.trans hget)⟩
    · rintro ⟨c, hc, rfl, rfl⟩
      exact hright c hc

/-- Nothing is dropped, and only keys without a value get one. -/
theorem Indexes.fits (h : Indexes key value entries get) (hadded : ∀ k, added k → get k = none)
    (hkept : ∀ k, ¬ added k → get' k = get k) : Fits key value entries added get' := by
  have hfresh : ∀ c ∈ entries, ¬ added (key c) := by
    intro c hc hmem
    have hget := h.get_key hc
    rw [hadded _ hmem] at hget
    cases hget
  refine ⟨hfresh, fun c hc => ?_, fun k d hget => ?_⟩
  · rw [hkept _ (hfresh c hc)]
    exact h.get_key hc
  · by_cases hk : added k
    · exact .inr hk
    · rw [hkept k hk] at hget
      exact .inl (h.mem_of_get hget)

end RagflowMineru.Library
