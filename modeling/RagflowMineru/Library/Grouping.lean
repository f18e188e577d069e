import RagflowMineru.Library.Assoc
import Mathlib.Algebra.Order.Group.Multiset

/-!
# Groups under keys

A dictionary of groups, none of which is empty.  An item is put at the end of the group of its key
or in front of a group that exists, and a group can be joined to another one.  The items of all
groups then stay the same, up to their order.
-/

namespace RagflowMineru.Library

structure Cluster (α : Type*) where
  first : α
  rest : List α

namespace Cluster

variable {α : Type*}

def toList (g : Cluster α) : List α := g.first :: g.rest

def last (g : Cluster α) : α := g.rest.getLast?.getD g.first

def snoc (g : Cluster α) (a : α) : Cluster α := ⟨g.first, g.rest ++ [a]⟩

def cons (a : α) (g : Cluster α) : Cluster α := ⟨a, g.toList⟩

def append (g h : Cluster α) : Cluster α := ⟨g.first, g.rest ++ h.toList⟩

@[simp] theorem toList_snoc (g : Cluster α) (a : α) : (g.snoc a).toList = g.toList ++ [a] := rfl

@[simp] theorem toList_cons (g : Cluster α) (a : α) : (g.cons a).toList = a :: g.toList := rfl

@[simp] theorem toList_append (g h : Cluster α) : (g.append h).toList = g.toList ++ h.toList := rfl

end Cluster

abbrev Groups (κ α : Type*) := Assoc κ (Cluster α)

namespace Groups

variable {κ α : Type*} [DecidableEq κ]

/-- The items of all groups. -/
def contents (d : Groups κ α) : Multiset α := (d.map fun entry => (entry.2.toList : Multiset α)).sum

/-- Put an item at the end of the group of its key. -/
def add (k : κ) (a : α) (d : Groups κ α) : Groups κ α :=
  Assoc.set k ((Assoc.get? k d).elim ⟨a, []⟩ (·.snoc a)) d

/-- Put an item in front of a group. -/
def addFront (k : κ) (a : α) (d : Groups κ α) : Groups κ α :=
  (Assoc.get? k d).elim d fun g => Assoc.set k (g.cons a) d

def erase (k : κ) (d : Groups κ α) : Groups κ α := d.filter fun entry => entry.1 ≠ k

/-- Put a group behind another one. -/
def join (k₀ k : κ) (d : Groups κ α) : Groups κ α :=
  match Assoc.get? k₀ d, Assoc.get? k d with
  | some g₀, some g => erase k (Assoc.set k₀ (g₀.append g) d)
  | _, _ => d

variable {k k₀ : κ} {a : α} {d : Groups κ α} {g : Cluster α}

section Contents

omit [DecidableEq κ]

@[simp] theorem contents_nil : contents ([] : Groups κ α) = 0 := rfl

theorem contents_cons (entry : κ × Cluster α) (d : Groups κ α) :
    contents (entry :: d) = entry.2.toList + contents d := by
  rw [contents, List.map_cons, List.sum_cons]
  rfl

theorem contents_append (d d' : Groups κ α) :
    contents (d ++ d') = contents d + contents d' := by
  rw [contents, List.map_append, List.sum_append]
  rfl

theorem mem_contents : a ∈ contents d ↔ ∃ entry ∈ d, a ∈ entry.2.toList := by
  induction d with
  | nil => simp
  | cons entry d ih =>
      rw [contents_cons, Multiset.mem_add, Multiset.mem_coe, ih, List.exists_mem_cons_iff]

end Contents

/-- A group is replaced by another one. -/
theorem contents_set (h : Assoc.get? k d = some g) (g' : Cluster α) :
    contents (Assoc.set k g' d) + g.toList = contents d + g'.toList := by
  induction d with
  | nil => exact nomatch h
  | cons entry d ih =>
      obtain ⟨key, group⟩ := entry
      rw [Assoc.get?] at h
      rw [Assoc.set]
      split_ifs at h ⊢ with hkey
      · obtain rfl := Option.some.inj h
        rw [contents_cons, contents_cons, add_right_comm, add_comm (g'.toList : Multiset α),
          add_assoc, add_comm (g'.toList : Multiset α), ← add_assoc]
      · rw [contents_cons, contents_cons, add_assoc, add_assoc, ih h]

theorem contents_add (k : κ) (a : α) (d : Groups κ α) :
    contents (add k a d) = a ::ₘ contents d := by
  rw [add]
  cases h : Assoc.get? k d with
  | none =>
      rw [Assoc.set_of_notMem (Assoc.get?_eq_none_iff.mp h), contents_append, contents_cons,
        contents_nil, add_zero, add_comm]
      exact Multiset.singleton_add a _
  | some g =>
      have hset := contents_set h (g.snoc a)
      rw [Cluster.toList_snoc, ← Multiset.coe_add, ← add_assoc, add_right_comm] at hset
      rw [Option.elim_some, add_right_cancel hset, add_comm]
      exact Multiset.singleton_add a _

theorem contents_addFront (h : Assoc.get? k d = some g) :
    contents (addFront k a d) = a ::ₘ contents d := by
  have hset := contents_set h (g.cons a)
  rw [Cluster.toList_cons, ← Multiset.cons_coe, Multiset.add_cons, ← Multiset.cons_add] at hset
  rw [addFront, h]
  exact add_right_cancel hset

theorem erase_of_notMem (h : k ∉ Assoc.keys d) : erase k d = d := by
  refine List.filter_eq_self.mpr fun entry hentry => decide_eq_true ?_
  rintro rfl
  exact h (List.mem_map_of_mem hentry)

theorem contents_erase (hd : (Assoc.keys d).Nodup) (h : Assoc.get? k d = some g) :
    contents d = contents (erase k d) + g.toList := by
  induction d with
  | nil => exact nomatch h
  | cons entry d ih =>
      obtain ⟨key, group⟩ := entry
      obtain ⟨hkey, hrest⟩ := List.nodup_cons.mp hd
      rw [Assoc.get?] at h
      split_ifs at h with heq
      · subst heq
        obtain rfl := Option.some.inj h
        have herase : erase key ((key, group) :: d) = d :=
          (List.filter_cons_of_neg (by simp)).trans (erase_of_notMem hkey)
        rw [herase, contents_cons, add_comm]
      · have herase : erase k ((key, group) :: d) = (key, group) :: erase k d :=
          List.filter_cons_of_pos (by simpa using heq)
        rw [herase, contents_cons, contents_cons, ih hrest h, add_assoc]

theorem keys_erase (k : κ) (d : Groups κ α) :
    Assoc.keys (erase k d) = (Assoc.keys d).filter fun key => key ≠ k := by
  rw [Assoc.keys, erase, Assoc.keys, List.filter_map]
  rfl

/-- Two groups that are joined keep their items. -/
theorem contents_join (hd : (Assoc.keys d).Nodup) (hne : k₀ ≠ k) :
    contents (join k₀ k d) = contents d := by
  rw [join]
  rcases h₀ : Assoc.get? k₀ d with - | g₀
  · rfl
  rcases h : Assoc.get? k d with - | g
  · rfl
  have hget : Assoc.get? k (Assoc.set k₀ (g₀.append g) d) = some g := by
    rw [Assoc.get?_set_of_ne hne.symm, h]
  have hset := contents_set h₀ (g₀.append g)
  have herase := contents_erase (Assoc.nodup_keys_set hd k₀ _) hget
  rw [herase, Cluster.toList_append, ← Multiset.coe_add, add_right_comm, ← add_assoc] at hset
  exact add_right_cancel (add_right_cancel hset)

theorem nodup_keys_join (hd : (Assoc.keys d).Nodup) : (Assoc.keys (join k₀ k d)).Nodup := by
  rw [join]
  split
  · rw [keys_erase]
    exact (Assoc.nodup_keys_set hd _ _).filter _
  · exact hd

theorem nodup_keys_add (hd : (Assoc.keys d).Nodup) : (Assoc.keys (add k a d)).Nodup :=
  Assoc.nodup_keys_set hd _ _

theorem nodup_keys_addFront (hd : (Assoc.keys d).Nodup) :
    (Assoc.keys (addFront k a d)).Nodup := by
  rw [addFront]
  cases Assoc.get? k d with
  | none => exact hd
  | some g => exact Assoc.nodup_keys_set hd _ _

end Groups

end RagflowMineru.Library
