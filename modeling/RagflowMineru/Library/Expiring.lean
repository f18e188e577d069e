import Mathlib.Algebra.Group.Defs
import Mathlib.Logic.Function.Basic

/-!
# A key-value store with lifetimes

An entry either stays until it is overwritten or carries a time-to-live; when
the latter runs out is not ours to say, so the end of a lifetime is an operation
of its own, which does nothing to an entry without one.
-/

namespace RagflowMineru.Library

/-- A value under a key; `expires` when it was written with a time-to-live. -/
structure Entry (β : Type*) where
  value : β
  expires : Bool
  deriving DecidableEq

/-- The contents of the store. -/
abbrev Expiring (κ β : Type*) := κ → Option (Entry β)

namespace Expiring

variable {κ β : Type*}

def empty : Expiring κ β := fun _ => none

def get (s : Expiring κ β) (k : κ) : Option β := (s k).map Entry.value

@[simp] theorem get_empty (k : κ) : (empty : Expiring κ β).get k = none := rfl

variable [DecidableEq κ]

/-- Overwrite a key, lifetime included. -/
def put (s : Expiring κ β) (k : κ) (v : β) (expires : Bool) : Expiring κ β :=
  Function.update s k (some ⟨v, expires⟩)

/-- The lifetime of a key runs out. -/
def expire (s : Expiring κ β) (k : κ) : Expiring κ β :=
  match s k with
  | some ⟨_, true⟩ => Function.update s k none
  | _ => s

/-- The lifetimes of some keys run out together. -/
def expireAll (s : Expiring κ β) (ks : List κ) : Expiring κ β :=
  fun k => if k ∈ ks then (s k).filter fun e => !e.expires else s k

/-- Add to a number and keep its lifetime; a missing key counts as zero and is
created without one. -/
def incrBy [AddZeroClass β] (s : Expiring κ β) (k : κ) (d : β) : Expiring κ β :=
  Function.update s k
    (some ⟨((s k).map Entry.value).getD 0 + d, (s k).any Entry.expires⟩)

@[simp] theorem get_put_self (s : Expiring κ β) (k : κ) (v : β) (b : Bool) :
    (s.put k v b).get k = some v := by
  simp [get, put]

theorem get_put_of_ne (s : Expiring κ β) {k k' : κ} (v : β) (b : Bool)
    (h : k' ≠ k) : (s.put k v b).get k' = s.get k' := by
  simp [get, put, h]

theorem get_put (s : Expiring κ β) (k k' : κ) (v : β) (b : Bool) :
    (s.put k v b).get k' = if k' = k then some v else s.get k' := by
  split
  · rename_i h
    rw [h, get_put_self]
  · rename_i h
    exact s.get_put_of_ne v b h

/-- What is read after a lifetime has run out was there before. -/
theorem get_of_get_expire {s : Expiring κ β} {k k' : κ} {v : β}
    (h : (s.expire k).get k' = some v) : s.get k' = some v := by
  unfold expire at h
  split at h
  · by_cases hkey : k' = k
    · subst hkey
      simp [get] at h
    · rwa [get, Function.update_of_ne hkey] at h
  · exact h

theorem get_of_get_expireAll {s : Expiring κ β} {ks : List κ} {k : κ} {v : β}
    (h : (s.expireAll ks).get k = some v) : s.get k = some v := by
  unfold get expireAll at h
  split at h
  · obtain ⟨e, he, rfl⟩ := Option.map_eq_some_iff.mp h
    rw [get, (Option.filter_eq_some_iff.mp he).1, Option.map_some]
  · exact h

/-- An entry stays if it has no lifetime or its lifetime is not at an end. -/
theorem expireAll_eq_some_iff {s : Expiring κ β} {ks : List κ} {k : κ} {e : Entry β} :
    s.expireAll ks k = some e ↔ s k = some e ∧ (k ∈ ks → e.expires = false) := by
  unfold expireAll
  by_cases h : k ∈ ks <;> simp [h]

@[simp] theorem get_incrBy_self [AddZeroClass β] (s : Expiring κ β) (k : κ) (d : β) :
    (s.incrBy k d).get k = some ((s.get k).getD 0 + d) := by
  simp [get, incrBy]

theorem get_incrBy_of_ne [AddZeroClass β] (s : Expiring κ β) {k k' : κ} (d : β)
    (h : k' ≠ k) : (s.incrBy k d).get k' = s.get k' := by
  simp [get, incrBy, h]

/-! ## The journal of a store -/

/-- The value of the latest write to `k`; the journal's newest write is its
first. -/
def latest (journal : List (κ × β)) (k : κ) : Option β :=
  (journal.find? fun w => w.1 = k).map Prod.snd

/-- Whatever can be read is the value of the latest write to its key. -/
def KeptBy (s : Expiring κ β) (journal : List (κ × β)) : Prop :=
  ∀ k v, s.get k = some v → latest journal k = some v

theorem keptBy_empty : (empty : Expiring κ β).KeptBy [] := by
  intro k v h
  simp at h

theorem latest_cons (journal : List (κ × β)) (k k' : κ) (v : β) :
    latest ((k, v) :: journal) k' =
      if k = k' then some v else latest journal k' := by
  unfold latest
  by_cases h : k = k' <;> simp [h]

theorem KeptBy.put {s : Expiring κ β} {journal : List (κ × β)}
    (hkept : s.KeptBy journal) (k : κ) (v : β) (b : Bool) :
    (s.put k v b).KeptBy ((k, v) :: journal) := by
  intro k' v' h
  rw [get_put] at h
  rw [latest_cons]
  by_cases hkey : k' = k
  · rw [if_pos hkey] at h
    rw [if_pos hkey.symm, h]
  · rw [if_neg hkey] at h
    rw [if_neg (Ne.symm hkey)]
    exact hkept k' v' h

theorem KeptBy.expire {s : Expiring κ β} {journal : List (κ × β)}
    (hkept : s.KeptBy journal) (k : κ) : (s.expire k).KeptBy journal :=
  fun k' v h => hkept k' v (get_of_get_expire h)

end Expiring

end RagflowMineru.Library
