import RagflowMineru.Library.Assoc
import Mathlib.Data.List.Find
import Mathlib.Data.List.Induction

/-!
# Buckets

Each item is put into the bucket of each of its keys.  A bucket then holds the
items that have its key, in their order, so that the first acceptable item of a
bucket is the first acceptable item of all when acceptable items have the key.
-/

namespace RagflowMineru.Library

variable {κ ι : Type*} [DecidableEq κ]

/-- The bucket of a key; a bucket that was never written is empty. -/
def bucket (k : κ) (grid : Assoc κ (List ι)) : List ι := (Assoc.get? k grid).getD []

/-- Put an item into the bucket of a key. -/
def addTo (i : ι) (grid : Assoc κ (List ι)) (k : κ) : Assoc κ (List ι) :=
  Assoc.set k (bucket k grid ++ [i]) grid

/-- Put each item into the buckets of its keys. -/
def buckets (keys : ι → List κ) (items : List ι) : Assoc κ (List ι) :=
  items.foldl (fun grid i => (keys i).foldl (addTo i) grid) []

theorem bucket_addTo (i : ι) (grid : Assoc κ (List ι)) (k k' : κ) :
    bucket k (addTo i grid k') = bucket k grid ++ if k' = k then [i] else [] := by
  by_cases hk : k' = k
  · subst k'
    simp [bucket, addTo]
  · simp [bucket, addTo, hk, Assoc.get?_set_of_ne (Ne.symm hk)]

/-- One item goes to the end of the bucket of each of its keys. -/
theorem bucket_foldl_addTo (i : ι) (k : κ) {ks : List κ} (hks : ks.Nodup)
    (grid : Assoc κ (List ι)) :
    bucket k (ks.foldl (addTo i) grid) = bucket k grid ++ if k ∈ ks then [i] else [] := by
  induction ks generalizing grid with
  | nil => simp
  | cons k' ks ih =>
      obtain ⟨hk', hks⟩ := List.nodup_cons.mp hks
      rw [List.foldl_cons, ih hks, bucket_addTo, List.append_assoc]
      by_cases hk : k' = k
      · subst k'
        simp [hk']
      · simp [hk, Ne.symm hk]

/-- A bucket holds the items that have its key. -/
theorem bucket_buckets (keys : ι → List κ) (items : List ι)
    (hkeys : ∀ i ∈ items, (keys i).Nodup) (k : κ) :
    bucket k (buckets keys items) = items.filter fun i => decide (k ∈ keys i) := by
  induction items using List.reverseRecOn with
  | nil => rfl
  | append_singleton items i ih =>
      have hbefore := ih fun j hj => hkeys j (List.mem_append_left [i] hj)
      have hi := hkeys i (List.mem_append_right items (List.mem_singleton_self i))
      rw [buckets] at hbefore ⊢
      rw [List.foldl_append, List.foldl_cons, List.foldl_nil, bucket_foldl_addTo i k hi, hbefore,
        List.filter_append]
      by_cases hk : k ∈ keys i
      · simp [hk]
      · simp [hk]

/-- Nothing is lost by looking into one bucket only. -/
theorem find?_bucket (keys : ι → List κ) (items : List ι)
    (hkeys : ∀ i ∈ items, (keys i).Nodup) (k : κ) (accept : ι → Bool)
    (haccept : ∀ i ∈ items, accept i = true → k ∈ keys i) :
    (bucket k (buckets keys items)).find? accept = items.find? accept := by
  rw [bucket_buckets keys items hkeys, List.find?_filter]
  apply List.find?_congr
  intro i hi
  rcases hacc : accept i with - | -
  · simp
  · simp [haccept i hi hacc]

end RagflowMineru.Library
