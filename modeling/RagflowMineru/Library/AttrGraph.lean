import Mathlib.Data.Finset.Sort
import Mathlib.Data.Sym.Sym2
import RagflowMineru.Library.Table

/-!
# Undirected graphs with attributes

Nodes and edges, each with a value.  An edge is an unordered pair, and its ends
are nodes.  A loop over a set visits its elements in an order of its own.
-/

namespace RagflowMineru.Library

structure AttrGraph (V ν ε : Type*) where
  nodes : Table V ν
  edges : Table (Sym2 V) ε
  ends : ∀ e ∈ edges.keys, ∀ v ∈ e, v ∈ nodes.keys

/-- The order in which a set is visited. -/
structure Visit (V : Type*) where
  list : Finset V → List V
  nodup : ∀ s, (list s).Nodup
  mem_iff : ∀ s v, v ∈ list s ↔ v ∈ s

/-- A visit of other elements that stand for those of the set. -/
def Visit.comap {V W : Type*} [DecidableEq W] (visit : Visit W) (f : V → W) (g : W → V)
    (hgf : ∀ v, g (f v) = v) : Visit V where
  list s := (visit.list (s.image f)).map g
  nodup s := by
    refine (visit.nodup _).map_on fun w hw w' hw' heq => ?_
    obtain ⟨v, -, rfl⟩ := Finset.mem_image.mp ((visit.mem_iff _ _).mp hw)
    obtain ⟨v', -, rfl⟩ := Finset.mem_image.mp ((visit.mem_iff _ _).mp hw')
    rw [hgf, hgf] at heq
    rw [heq]
  mem_iff s v := by
    simp only [List.mem_map, visit.mem_iff, Finset.mem_image]
    constructor
    · rintro ⟨_, ⟨v', hv', rfl⟩, rfl⟩
      rwa [hgf]
    · intro hv
      exact ⟨f v, ⟨v, hv, rfl⟩, hgf v⟩

def Visit.sorted (V : Type*) [LinearOrder V] : Visit V where
  list s := s.sort (· ≤ ·)
  nodup s := s.sort_nodup _
  mem_iff s _ := s.mem_sort _

namespace AttrGraph

variable {V ν ε : Type*} [DecidableEq V]

def edge? (g : AttrGraph V ν ε) (u v : V) : Option ε := g.edges.get? s(u, v)

def neighbors (g : AttrGraph V ν ε) (v : V) : Finset V :=
  g.nodes.keys.filter fun u => s(v, u) ∈ g.edges.keys

/-- Write an edge between two nodes; without the nodes nothing is written. -/
def setEdge (g : AttrGraph V ν ε) (u v : V) (a : ε) : AttrGraph V ν ε :=
  if h : u ∈ g.nodes.keys ∧ v ∈ g.nodes.keys then
    { g with
      edges := g.edges.insert s(u, v) a
      ends := by
        intro e he w hw
        rcases Finset.mem_insert.mp he with rfl | he
        · rcases Sym2.mem_iff.mp hw with rfl | rfl
          · exact h.1
          · exact h.2
        · exact g.ends e he w hw }
  else g

def addNode (g : AttrGraph V ν ε) (v : V) (a : ν) : AttrGraph V ν ε :=
  { g with
    nodes := g.nodes.insert v a
    ends := fun e he w hw => Finset.mem_insert_of_mem (g.ends e he w hw) }

def updateNode (g : AttrGraph V ν ε) (v : V) (f : ν → ν) : AttrGraph V ν ε :=
  { g with
    nodes := g.nodes.update v f
    ends := by simpa using g.ends }

/-- Remove a node with its edges. -/
def removeNode (g : AttrGraph V ν ε) (v : V) : AttrGraph V ν ε where
  nodes := g.nodes.delete v
  edges := ⟨g.edges.keys.filter (v ∉ ·), g.edges.row⟩
  ends := by
    intro e he w hw
    obtain ⟨hmem, hv⟩ := Finset.mem_filter.mp he
    refine Finset.mem_erase.mpr ⟨?_, g.ends e hmem w hw⟩
    rintro rfl
    exact hv hw

def empty [Inhabited ν] [Inhabited ε] : AttrGraph V ν ε :=
  ⟨.empty, .empty, fun e he => absurd he (Finset.notMem_empty e)⟩

/-- Both graphs; where a node or an edge is in both, the value of the second counts. -/
def compose (g h : AttrGraph V ν ε) : AttrGraph V ν ε where
  nodes := g.nodes.overlay h.nodes
  edges := g.edges.overlay h.edges
  ends := by
    intro e he v hv
    rcases Finset.mem_union.mp he with he | he
    · exact Finset.mem_union_left _ (g.ends e he v hv)
    · exact Finset.mem_union_right _ (h.ends e he v hv)

/-- The nodes with a property, and the edges between them. -/
def induced (g : AttrGraph V ν ε) (p : V → Prop) [DecidablePred p] : AttrGraph V ν ε where
  nodes := ⟨g.nodes.keys.filter p, g.nodes.row⟩
  edges := ⟨g.edges.keys.filter fun e => ∀ v ∈ e.toFinset, p v, g.edges.row⟩
  ends := by
    intro e he v hv
    obtain ⟨hmem, hp⟩ := Finset.mem_filter.mp he
    exact Finset.mem_filter.mpr ⟨g.ends e hmem v hv, hp v (Sym2.mem_toFinset.mpr hv)⟩

/-- Change the values of all nodes. -/
def mapNodes (g : AttrGraph V ν ε) (f : V → ν → ν) : AttrGraph V ν ε :=
  { g with nodes := ⟨g.nodes.keys, fun v => f v (g.nodes.row v)⟩ }

variable {g : AttrGraph V ν ε} {u v w : V} {e : Sym2 V} {a : ε}

theorem edge?_comm (g : AttrGraph V ν ε) (u v : V) : g.edge? u v = g.edge? v u := by
  rw [edge?, edge?, Sym2.eq_swap]

theorem edge?_isSome_iff : (g.edge? u v).isSome ↔ s(u, v) ∈ g.edges.keys := by
  rw [edge?, ← Option.ne_none_iff_isSome, ne_eq, Table.get?_eq_none_iff, not_not]

theorem mem_nodes_of_edge? (h : (g.edge? u v).isSome) : u ∈ g.nodes.keys ∧ v ∈ g.nodes.keys :=
  have hmem := edge?_isSome_iff.mp h
  ⟨g.ends _ hmem u (Sym2.mem_mk_left u v), g.ends _ hmem v (Sym2.mem_mk_right u v)⟩

theorem mem_neighbors_iff : u ∈ g.neighbors v ↔ (g.edge? v u).isSome := by
  rw [neighbors, Finset.mem_filter, ← edge?_isSome_iff]
  exact ⟨fun h => h.2, fun h => ⟨(mem_nodes_of_edge? h).2, h⟩⟩

@[simp] theorem nodes_setEdge : (g.setEdge u v a).nodes = g.nodes := by
  rw [setEdge]
  split <;> rfl

@[simp] theorem row_addNode_of_ne {b : ν} (h : u ≠ v) :
    (g.addNode v b).nodes.row u = g.nodes.row u := Function.update_of_ne h _ _

theorem keys_setEdge (hu : u ∈ g.nodes.keys) (hv : v ∈ g.nodes.keys) :
    (g.setEdge u v a).edges.keys = insert s(u, v) g.edges.keys := by
  rw [setEdge, dif_pos ⟨hu, hv⟩]
  rfl

theorem get?_setEdge (hu : u ∈ g.nodes.keys) (hv : v ∈ g.nodes.keys) :
    (g.setEdge u v a).edges.get? e = if e = s(u, v) then some a else g.edges.get? e := by
  rw [setEdge, dif_pos ⟨hu, hv⟩]
  exact Table.get?_insert g.edges _ _ _

@[simp] theorem keys_addNode {b : ν} :
    (g.addNode v b).nodes.keys = insert v g.nodes.keys := rfl

@[simp] theorem edges_addNode {b : ν} : (g.addNode v b).edges = g.edges := rfl

@[simp] theorem keys_updateNode {f : ν → ν} :
    (g.updateNode v f).nodes.keys = g.nodes.keys := Table.keys_update _ _ _

@[simp] theorem edges_updateNode {f : ν → ν} : (g.updateNode v f).edges = g.edges := rfl

@[simp] theorem keys_removeNode : (g.removeNode v).nodes.keys = g.nodes.keys.erase v := rfl

theorem get?_removeNode :
    (g.removeNode v).edges.get? e = if v ∈ e then none else g.edges.get? e := by
  by_cases hv : v ∈ e <;> simp [removeNode, Table.get?, hv]

end AttrGraph

end RagflowMineru.Library
