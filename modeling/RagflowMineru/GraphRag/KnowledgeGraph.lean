import Mathlib.Data.List.Sort
import Mathlib.Data.Rat.Defs
import Mathlib.Data.String.Basic
import RagflowMineru.Library.AttrGraph

/-!
# Knowledge graphs

Entities and relations with the documents that they come from, and the record of
what a step has changed.
-/

namespace RagflowMineru.GraphRag

open Library

structure NodeAttrs where
  entityType : String
  description : String
  sourceId : List String
  deriving DecidableEq, Inhabited

structure EdgeAttrs where
  weight : ℚ
  description : String
  keywords : List String
  sourceId : List String
  deriving DecidableEq, Inhabited

/-- A knowledge graph. -/
abbrev KGraph := AttrGraph String NodeAttrs EdgeAttrs

structure GraphChange where
  removedNodes : Finset String := ∅
  addedUpdatedNodes : Finset String := ∅
  removedEdges : Finset (String × String) := ∅
  addedUpdatedEdges : Finset (String × String) := ∅
  deriving DecidableEq

def graphFieldSep : String := "<SEP>"

/-- An edge as the pair of its ends in order. -/
def getFromTo (node1 node2 : String) : String × String :=
  if node1 < node2 then (node1, node2) else (node2, node1)

theorem getFromTo_comm (node1 node2 : String) :
    getFromTo node1 node2 = getFromTo node2 node1 := by
  rcases lt_trichotomy node1 node2 with hlt | rfl | hlt
  · rw [getFromTo, getFromTo, if_pos hlt, if_neg hlt.asymm]
  · rfl
  · rw [getFromTo, getFromTo, if_neg hlt.asymm, if_pos hlt]

theorem getFromTo_injective (node0 : String) : Function.Injective (getFromTo node0) := by
  intro n m heq
  rw [getFromTo, getFromTo] at heq
  split_ifs at heq
  · exact (Prod.mk.inj heq).2
  · obtain ⟨rfl, rfl⟩ := Prod.mk.inj heq
    rfl
  · obtain ⟨rfl, rfl⟩ := Prod.mk.inj heq
    rfl
  · exact (Prod.mk.inj heq).1

/-- `sorted(set(l))`. -/
def sortedSet (l : List String) : List String := l.dedup.insertionSort (· ≤ ·)

theorem mem_sortedSet {k : String} {l : List String} : k ∈ sortedSet l ↔ k ∈ l := by
  rw [sortedSet, List.mem_insertionSort, List.mem_dedup]

/-- The nodes of a set in order. -/
def visitSorted : Visit String where
  list s := s.sort (· ≤ ·)
  nodup s := s.sort_nodup _
  mem_iff s _ := s.mem_sort _

def entity (description : String) : NodeAttrs := ⟨"PERSON", description, ["doc"]⟩

def relation (weight : ℚ) : EdgeAttrs := ⟨weight, "knows", [], ["doc"]⟩

/-- Nodes without edges. -/
def edgeless (names : Finset String) : KGraph where
  nodes := ⟨names, entity⟩
  edges := .empty
  ends e he := absurd he (Finset.notMem_empty e)

end RagflowMineru.GraphRag
