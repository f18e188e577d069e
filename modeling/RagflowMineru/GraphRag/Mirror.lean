import Mathlib.Data.Prod.Lex
import Mathlib.Data.Sym.Sym2.Order
import RagflowMineru.GraphRag.MergeNodes
import RagflowMineru.GraphRag.Rebuild
import RagflowMineru.Library.Index

/-!
# Entity and relation chunks of the stored graph

`set_graph` replaces the stored graph, deletes the chunks of the nodes and edges
that the change removes, and inserts chunks under fresh ids for those that it adds
or updates.  A chunk of an updated node or edge is not deleted, and a relation
chunk is only found by its ends in the order in which it was written.
-/

namespace RagflowMineru.GraphRag

open Library

/-- A knowledge graph with the documents that it comes from. -/
structure SourcedGraph where
  graph : KGraph
  sourceId : List String

structure EntityChunk where
  entityKwd : String
  attrs : NodeAttrs
  deriving DecidableEq

structure RelationChunk where
  fromEntityKwd : String
  toEntityKwd : String
  attrs : EdgeAttrs
  deriving DecidableEq

/-- The edge that a relation chunk is about. -/
def RelationChunk.edge (c : RelationChunk) : Sym2 String := s(c.fromEntityKwd, c.toEntityKwd)

/-- What is stored for a knowledge base. -/
structure KgStore where
  graph : Option SourcedGraph := none
  subgraphs : List SubgraphRow := []
  entities : List EntityChunk := []
  relations : List RelationChunk := []

/-- The orders in which loops visit nodes and edges, and the ends of an edge in the order in
which a graph lists them. -/
structure Iteration where
  nodes : Visit String
  edges : Visit (Sym2 String)
  pairs : Visit (String × String)
  ends : Sym2 String → String × String
  ends_eq : ∀ e, s((ends e).1, (ends e).2) = e

def Iteration.edgeList (order : Iteration) (graph : KGraph) : List (String × String) :=
  (order.edges.list graph.edges.keys).map order.ends

/-! ## Merging a subgraph -/

/-- The body of the loop over the nodes of `g2`. -/
def graphMergeNode (g2 : KGraph) (s : KGraph × GraphChange) (nodeName : String) :
    KGraph × GraphChange :=
  let (g1, change) := s
  let change := { change with addedUpdatedNodes := insert nodeName change.addedUpdatedNodes }
  let attr := g2.nodes.row nodeName
  if nodeName ∈ g1.nodes.keys then
    (g1.updateNode nodeName fun node =>
      { node with
        description := node.description ++ graphFieldSep ++ attr.description
        sourceId := node.sourceId ++ attr.sourceId }, change)
  else (g1.addNode nodeName attr, change)

/-- The body of the loop over the edges of `g2`. -/
def graphMergeEdge (g2 : KGraph) (s : KGraph × GraphChange) (ends : String × String) :
    KGraph × GraphChange :=
  let (g1, change) := s
  let (source, target) := ends
  let change := { change with
    addedUpdatedEdges := insert (getFromTo source target) change.addedUpdatedEdges }
  let attr := g2.edges.row s(source, target)
  match g1.edge? source target with
  | none => (g1.setEdge source target attr, change)
  | some edge =>
      (g1.setEdge source target
        { weight := edge.weight + attr.weight
          description := edge.description ++ graphFieldSep ++ attr.description
          keywords := edge.keywords ++ attr.keywords
          sourceId := edge.sourceId ++ attr.sourceId }, change)

def graphMerge (order : Iteration) (g1 g2 : SourcedGraph) (change : GraphChange) :
    SourcedGraph × GraphChange :=
  let s := (order.nodes.list g2.graph.nodes.keys).foldl (graphMergeNode g2.graph)
    (g1.graph, change)
  let s := (order.edgeList g2.graph).foldl (graphMergeEdge g2.graph) s
  (⟨s.1, g1.sourceId ++ g2.sourceId⟩, s.2)

/-! ## Storing a graph -/

/-- The part of a graph that is stored as the subgraph of a source. -/
def subgraphOf (graph : KGraph) (source : String) : DocSubgraph where
  doc := source
  graph := (graph.induced fun n => source ∈ (graph.nodes.row n).sourceId).mapNodes
    fun _ attrs => { attrs with sourceId := [source] }
  own _ _ := rfl

def entityChunks (order : Iteration) (graph : KGraph) (change : GraphChange) : List EntityChunk :=
  (order.nodes.list change.addedUpdatedNodes).map fun node => ⟨node, graph.nodes.row node⟩

/-- An edge that the graph does not have is passed over. -/
def relationChunks (order : Iteration) (graph : KGraph) (change : GraphChange) :
    List RelationChunk :=
  (order.pairs.list change.addedUpdatedEdges).filterMap fun (fromNode, toNode) =>
    (graph.edge? fromNode toNode).map fun edgeAttrs => ⟨fromNode, toNode, edgeAttrs⟩

/-- The entity chunks that a change leaves. -/
def KgStore.keptEntities (store : KgStore) (change : GraphChange) : List EntityChunk :=
  store.entities.filter (·.entityKwd ∉ change.removedNodes)

/-- The relation chunks that a change leaves. -/
def KgStore.keptRelations (store : KgStore) (change : GraphChange) : List RelationChunk :=
  store.relations.filter fun c => (c.fromEntityKwd, c.toEntityKwd) ∉ change.removedEdges

/-- The deletions come first; `graph.nodes[node]` then raises for an added node that the
graph does not have, and the store stays as it is by then. -/
def setGraph (order : Iteration) (store : KgStore) (graph : SourcedGraph) (change : GraphChange) :
    Except KgStore KgStore :=
  let store := {
    graph := none
    subgraphs := []
    entities := store.keptEntities change
    relations := store.keptRelations change }
  if change.addedUpdatedNodes ⊆ graph.graph.nodes.keys then
    .ok {
      graph := some graph
      subgraphs := graph.sourceId.map fun source => (subgraphOf graph.graph source).row
      entities := store.entities ++ entityChunks order graph.graph change
      relations := store.relations ++ relationChunks order graph.graph change }
  else .error store

def mergeSubgraph (order : Iteration) (store : KgStore) (subgraph : SourcedGraph) :
    Except KgStore KgStore :=
  match store.graph with
  | some oldGraph =>
      let (newGraph, change) := graphMerge order oldGraph subgraph {}
      setGraph order store newGraph change
  | none =>
      setGraph order store subgraph
        { addedUpdatedNodes := subgraph.graph.nodes.keys
          addedUpdatedEdges := (order.edgeList subgraph.graph).toFinset }

/-- `reso` is what entity resolution makes of the graph with the answers of the model. -/
def resolveEntities (order : Iteration) (store : KgStore) (graph : SourcedGraph)
    (reso : KGraph → KGraph × GraphChange) : Except KgStore KgStore :=
  let (resolved, change) := reso graph.graph
  setGraph order store ⟨resolved, graph.sourceId⟩ change

/-- A call on a knowledge base. -/
inductive KgCall where
  | mergeSubgraph (subgraph : SourcedGraph)
  | resolveEntities (graph : SourcedGraph) (reso : KGraph → KGraph × GraphChange)
  | setGraph (graph : SourcedGraph) (change : GraphChange)

def KgCall.run (order : Iteration) (store : KgStore) : KgCall → Except KgStore KgStore
  | mergeSubgraph subgraph => GraphRag.mergeSubgraph order store subgraph
  | resolveEntities graph reso => GraphRag.resolveEntities order store graph reso
  | setGraph graph change => GraphRag.setGraph order store graph change

/-- The store after a call that has returned or raised. -/
def storeLeft : Except KgStore KgStore → KgStore
  | .ok store | .error store => store

/-- The store after some calls; every call has its own orders. -/
def storedAfter (calls : List (Iteration × KgCall)) : KgStore :=
  calls.foldl (fun store call => storeLeft (call.2.run call.1 store)) {}

/-! ## The mirror -/

def nodeDescription (graph : KGraph) (n : String) : Option String :=
  (graph.nodes.get? n).map NodeAttrs.description

def edgeDescription (graph : KGraph) (e : Sym2 String) : Option String :=
  (graph.edges.get? e).map EdgeAttrs.description

/-- The stored graph; without one there are no nodes. -/
def KgStore.storedGraph (store : KgStore) : KGraph :=
  (store.graph.map SourcedGraph.graph).getD .empty

/-- The chunks stand one to one for the nodes and edges of the stored graph, with the same
descriptions. -/
structure Mirror (store : KgStore) : Prop where
  entities : Indexes EntityChunk.entityKwd (fun c => c.attrs.description) store.entities
    (nodeDescription store.storedGraph)
  relations : Indexes RelationChunk.edge (fun c => c.attrs.description) store.relations
    (edgeDescription store.storedGraph)

/-- The edges for which a change has relation chunks written. -/
def writtenEdges (graph : KGraph) (change : GraphChange) : Finset (String × String) :=
  change.addedUpdatedEdges.filter fun p => s(p.1, p.2) ∈ graph.edges.keys

/-- A change that returns drops the chunks of all that it adds or updates, in the order of
the ends in which they are stored, and adds what is new; one that raises leaves no chunk. -/
def CarefulChange (store : KgStore) (graph : KGraph) (change : GraphChange) : Prop :=
  if change.addedUpdatedNodes ⊆ graph.nodes.keys then
    Fits EntityChunk.entityKwd (fun c => c.attrs.description) (store.keptEntities change)
        (· ∈ change.addedUpdatedNodes) (nodeDescription graph) ∧
      Fits RelationChunk.edge (fun c => c.attrs.description) (store.keptRelations change)
        (fun e => ∃ p ∈ writtenEdges graph change, s(p.1, p.2) = e) (edgeDescription graph) ∧
      ∀ p ∈ writtenEdges graph change, ∀ q ∈ writtenEdges graph change,
        s(p.1, p.2) = s(q.1, q.2) → p = q
  else store.keptEntities change = [] ∧ store.keptRelations change = []

/-- A subgraph shares no node with the stored graph; a change is careful. -/
def Careful (store : KgStore) : KgCall → Prop
  | .mergeSubgraph subgraph =>
      ∀ oldGraph, store.graph = some oldGraph →
        Disjoint oldGraph.graph.nodes.keys subgraph.graph.nodes.keys
  | .resolveEntities graph reso => CarefulChange store (reso graph.graph).1 (reso graph.graph).2
  | .setGraph graph change => CarefulChange store graph.graph change

/-! ## A change -/

section

variable {order : Iteration} {store : KgStore} {graph : KGraph} {change : GraphChange}

theorem map_entityKwd_entityChunks :
    (entityChunks order graph change).map EntityChunk.entityKwd =
      order.nodes.list change.addedUpdatedNodes := by
  rw [entityChunks, List.map_map]
  exact List.map_id _

theorem description_of_mem_entityChunks (hadded : change.addedUpdatedNodes ⊆ graph.nodes.keys)
    {c : EntityChunk} (hc : c ∈ entityChunks order graph change) :
    nodeDescription graph c.entityKwd = some c.attrs.description := by
  obtain ⟨n, hn, rfl⟩ := List.mem_map.mp hc
  have hmem := hadded ((order.nodes.mem_iff _ _).mp hn)
  rw [nodeDescription, Table.get?_eq_some_iff.mpr ⟨hmem, rfl⟩, Option.map_some]

theorem mem_relationChunks {c : RelationChunk} :
    c ∈ relationChunks order graph change ↔
      (c.fromEntityKwd, c.toEntityKwd) ∈ change.addedUpdatedEdges ∧
        graph.edge? c.fromEntityKwd c.toEntityKwd = some c.attrs := by
  rw [relationChunks, List.mem_filterMap]
  constructor
  · rintro ⟨p, hp, hc⟩
    obtain ⟨attrs, hattrs, rfl⟩ := Option.map_eq_some_iff.mp hc
    exact ⟨(order.pairs.mem_iff _ _).mp hp, hattrs⟩
  · rintro ⟨hp, hattrs⟩
    exact ⟨_, (order.pairs.mem_iff _ _).mpr hp, by simp [hattrs]⟩

theorem mem_map_edge_relationChunks {e : Sym2 String} :
    e ∈ (relationChunks order graph change).map RelationChunk.edge ↔
      ∃ p ∈ writtenEdges graph change, s(p.1, p.2) = e := by
  simp only [List.mem_map, mem_relationChunks, writtenEdges, Finset.mem_filter]
  constructor
  · rintro ⟨c, ⟨hp, hattrs⟩, rfl⟩
    refine ⟨_, ⟨hp, AttrGraph.edge?_isSome_iff.mp ?_⟩, rfl⟩
    rw [hattrs, Option.isSome_some]
  · rintro ⟨p, ⟨hp, hmem⟩, rfl⟩
    obtain ⟨attrs, hattrs⟩ := Option.isSome_iff_exists.mp (AttrGraph.edge?_isSome_iff.mpr hmem)
    exact ⟨⟨p.1, p.2, attrs⟩, ⟨hp, hattrs⟩, rfl⟩

/-- Each relation chunk is about an edge of its own when no edge is written in both orders of
its ends. -/
theorem nodup_edges_relationChunks_iff :
    ((relationChunks order graph change).map RelationChunk.edge).Nodup ↔
      ∀ p ∈ writtenEdges graph change, ∀ q ∈ writtenEdges graph change,
        s(p.1, p.2) = s(q.1, q.2) → p = q := by
  have hnodup : (relationChunks order graph change).Nodup := by
    refine (order.pairs.nodup _).filterMap fun p q c hp hq => ?_
    obtain ⟨_, -, rfl⟩ := Option.map_eq_some_iff.mp hp
    obtain ⟨_, -, hc⟩ := Option.map_eq_some_iff.mp hq
    injection hc with hfrom hto
    exact (Prod.ext hfrom hto).symm
  rw [List.nodup_map_iff_inj_on hnodup]
  constructor
  · intro h p hp q hq heq
    obtain ⟨hp, hpmem⟩ := Finset.mem_filter.mp hp
    obtain ⟨hq, hqmem⟩ := Finset.mem_filter.mp hq
    obtain ⟨a, ha⟩ := Option.isSome_iff_exists.mp (AttrGraph.edge?_isSome_iff.mpr hpmem)
    obtain ⟨b, hb⟩ := Option.isSome_iff_exists.mp (AttrGraph.edge?_isSome_iff.mpr hqmem)
    have hc := h ⟨p.1, p.2, a⟩ (mem_relationChunks.mpr ⟨hp, ha⟩) ⟨q.1, q.2, b⟩
      (mem_relationChunks.mpr ⟨hq, hb⟩) heq
    injection hc with hfrom hto
    exact Prod.ext hfrom hto
  · intro h c hc c' hc' heq
    obtain ⟨hp, hattrs⟩ := mem_relationChunks.mp hc
    obtain ⟨hq, hattrs'⟩ := mem_relationChunks.mp hc'
    have hpmem := AttrGraph.edge?_isSome_iff.mp (by rw [hattrs, Option.isSome_some])
    have hqmem := AttrGraph.edge?_isSome_iff.mp (by rw [hattrs', Option.isSome_some])
    obtain ⟨hfrom, hto⟩ := Prod.mk.inj (h _ (Finset.mem_filter.mpr ⟨hp, hpmem⟩) _
      (Finset.mem_filter.mpr ⟨hq, hqmem⟩) heq)
    rw [hfrom, hto] at hattrs
    obtain ⟨fromNode, toNode, attrs⟩ := c
    obtain ⟨fromNode', toNode', attrs'⟩ := c'
    obtain rfl : fromNode = fromNode' := hfrom
    obtain rfl : toNode = toNode' := hto
    obtain rfl : attrs = attrs' := Option.some.inj (hattrs.symm.trans hattrs')
    rfl

theorem description_of_mem_relationChunks {c : RelationChunk}
    (hc : c ∈ relationChunks order graph change) :
    edgeDescription graph c.edge = some c.attrs.description := by
  obtain ⟨-, hattrs⟩ := mem_relationChunks.mp hc
  exact congrArg (Option.map EdgeAttrs.description) hattrs

theorem mirror_iff_of_graph_eq (hgraph : store.storedGraph = graph) :
    Mirror store ↔
      Indexes EntityChunk.entityKwd (fun c => c.attrs.description) store.entities
          (nodeDescription graph) ∧
        Indexes RelationChunk.edge (fun c => c.attrs.description) store.relations
          (edgeDescription graph) := by
  subst hgraph
  exact ⟨fun h => ⟨h.entities, h.relations⟩, fun h => ⟨h.1, h.2⟩⟩

theorem nodeDescription_empty : nodeDescription .empty = fun _ => none := by
  funext n
  rw [nodeDescription, show (AttrGraph.empty : KGraph).nodes = .empty from rfl, Table.get?_empty,
    Option.map_none]

theorem edgeDescription_empty : edgeDescription .empty = fun _ => none := by
  funext e
  rw [edgeDescription, show (AttrGraph.empty : KGraph).edges = .empty from rfl, Table.get?_empty,
    Option.map_none]

theorem mirror_setGraph_iff {graph : SourcedGraph} (h : Mirror store) :
    Mirror (storeLeft (setGraph order store graph change)) ↔
      CarefulChange store graph.graph change := by
  rw [setGraph, CarefulChange]
  split
  · rename_i hadded
    have hentities : ((store.keptEntities change).map EntityChunk.entityKwd).Nodup :=
      h.entities.nodup.sublist (List.filter_sublist.map _)
    have hrelations : ((store.keptRelations change).map RelationChunk.edge).Nodup :=
      h.relations.nodup.sublist (List.filter_sublist.map _)
    refine (mirror_iff_of_graph_eq rfl).trans ?_
    refine (and_congr (indexes_append_iff hentities fun c hc =>
      description_of_mem_entityChunks hadded hc) (indexes_append_iff hrelations fun c hc =>
        description_of_mem_relationChunks hc)).trans ?_
    simp only [map_entityKwd_entityChunks, order.nodes.mem_iff, order.nodes.nodup, true_and,
      mem_map_edge_relationChunks, nodup_edges_relationChunks_iff]
    rw [and_comm (b := Fits RelationChunk.edge _ _ _ _)]
  · refine (@mirror_iff_of_graph_eq _ .empty rfl).trans ?_
    rw [nodeDescription_empty, edgeDescription_empty, indexes_none_iff, indexes_none_iff]
    rfl

end

/-! ## A merge -/

/-- What the loops of `graph_merge` have done after visiting some nodes and edges of the
second graph. -/
structure Grown (g1 g2 : KGraph) (nodes : List String) (edges : List (String × String))
    (s : KGraph × GraphChange) : Prop where
  nodes_eq : s.1.nodes.keys = g1.nodes.keys ∪ nodes.toFinset
  edges_eq : s.1.edges.keys = g1.edges.keys ∪ (edges.map fun p => s(p.1, p.2)).toFinset
  node_kept : ∀ n ∉ nodes, s.1.nodes.get? n = g1.nodes.get? n
  edge_kept : ∀ e ∉ edges.map fun p => s(p.1, p.2), s.1.edges.get? e = g1.edges.get? e
  change_eq : s.2 =
    { addedUpdatedNodes := nodes.toFinset
      addedUpdatedEdges := (edges.map fun p => getFromTo p.1 p.2).toFinset }

section

variable {g1 g2 : KGraph} {nodes : List String} {edges : List (String × String)}
  {s : KGraph × GraphChange}

theorem Grown.node (h : Grown g1 g2 nodes [] s) (n : String) :
    Grown g1 g2 (nodes ++ [n]) [] (graphMergeNode g2 s n) := by
  obtain ⟨graph, change⟩ := s
  have hnew : (nodes ++ [n]).toFinset = insert n nodes.toFinset := by
    ext m
    simp
  have hchange : ({ change with
      addedUpdatedNodes := insert n change.addedUpdatedNodes } : GraphChange) =
        { addedUpdatedNodes := (nodes ++ [n]).toFinset } := by
    rw [show change = _ from h.change_eq, hnew]
    rfl
  have hnodes : graph.nodes.keys = g1.nodes.keys ∪ nodes.toFinset := h.nodes_eq
  have hkept : ∀ m ∉ nodes ++ [n], m ≠ n ∧ graph.nodes.get? m = g1.nodes.get? m := by
    intro m hm
    obtain ⟨hm, hne⟩ := not_or.mp (mt List.mem_append.mpr hm)
    exact ⟨fun heq => hne (by simp [heq]), h.node_kept m hm⟩
  rw [graphMergeNode]
  split
  · rename_i hmem
    exact
      { nodes_eq := by
          rw [AttrGraph.keys_updateNode, hnew, Finset.union_insert, ← hnodes,
            Finset.insert_eq_of_mem hmem]
        edges_eq := h.edges_eq
        node_kept := by
          intro m hm
          obtain ⟨hne, hget⟩ := hkept m hm
          rw [← hget, Table.get?, Table.get?, AttrGraph.keys_updateNode]
          exact if_congr Iff.rfl (congrArg some (Table.row_update_of_ne _ hne _)) rfl
        edge_kept := h.edge_kept
        change_eq := hchange }
  · exact
      { nodes_eq := by
          rw [AttrGraph.keys_addNode, hnew, Finset.union_insert, ← hnodes]
        edges_eq := h.edges_eq
        node_kept := by
          intro m hm
          obtain ⟨hne, hget⟩ := hkept m hm
          rw [← hget]
          exact (Table.get?_insert _ _ _ _).trans (if_neg hne)
        edge_kept := h.edge_kept
        change_eq := hchange }

theorem Grown.edge (h : Grown g1 g2 nodes edges s) {p : String × String}
    (hends : p.1 ∈ s.1.nodes.keys ∧ p.2 ∈ s.1.nodes.keys) :
    Grown g1 g2 nodes (edges ++ [p]) (graphMergeEdge g2 s p) := by
  obtain ⟨graph, change⟩ := s
  obtain ⟨source, target⟩ := p
  obtain ⟨hsource, htarget⟩ := hends
  have hwritten : ∃ attrs, (graphMergeEdge g2 (graph, change) (source, target)) =
      (graph.setEdge source target attrs, { change with
        addedUpdatedEdges := insert (getFromTo source target) change.addedUpdatedEdges }) := by
    rw [graphMergeEdge]
    split
    · exact ⟨_, rfl⟩
    · exact ⟨_, rfl⟩
  obtain ⟨attrs, hresult⟩ := hwritten
  rw [hresult]
  exact
    { nodes_eq := by rw [AttrGraph.nodes_setEdge]; exact h.nodes_eq
      edges_eq := by
        have hedges : graph.edges.keys = _ := h.edges_eq
        rw [AttrGraph.keys_setEdge hsource htarget, hedges]
        ext e
        simp [or_left_comm]
      node_kept := by rw [AttrGraph.nodes_setEdge]; exact h.node_kept
      edge_kept := by
        intro e he
        rw [List.map_append, List.mem_append, not_or] at he
        rw [AttrGraph.get?_setEdge hsource htarget, if_neg fun heq => he.2 (by simp [heq])]
        exact h.edge_kept e he.1
      change_eq := by
        have hchange : change = _ := h.change_eq
        have hnew : ((edges ++ [(source, target)]).map fun p => getFromTo p.1 p.2).toFinset =
            insert (getFromTo source target) (edges.map fun p => getFromTo p.1 p.2).toFinset := by
          ext q
          simp
        rw [hchange, hnew] }

theorem grown_nodes (g1 g2 : KGraph) (nodes : List String) :
    Grown g1 g2 nodes [] (nodes.foldl (graphMergeNode g2) (g1, {})) := by
  induction nodes using List.reverseRecOn with
  | nil =>
      exact ⟨by simp, by simp, fun _ _ => rfl, fun _ _ => rfl, rfl⟩
  | append_singleton nodes n ih =>
      rw [List.foldl_append]
      exact ih.node n

theorem Grown.foldl_edges {start : KGraph × GraphChange} (h : Grown g1 g2 nodes [] start)
    (hends : ∀ p ∈ edges, p.1 ∈ start.1.nodes.keys ∧ p.2 ∈ start.1.nodes.keys) :
    Grown g1 g2 nodes edges (edges.foldl (graphMergeEdge g2) start) := by
  induction edges using List.reverseRecOn with
  | nil => exact h
  | append_singleton edges p ih =>
      have hloop := ih fun q hq => hends q (List.mem_append_left _ hq)
      rw [List.foldl_append]
      refine hloop.edge ?_
      rw [hloop.nodes_eq, ← h.nodes_eq]
      exact hends p (by simp)

end

theorem mem_edgeList {order : Iteration} {graph : KGraph} {e : Sym2 String} :
    e ∈ (order.edgeList graph).map (fun p => s(p.1, p.2)) ↔ e ∈ graph.edges.keys := by
  have hends : (fun p : String × String => s(p.1, p.2)) ∘ order.ends = id :=
    funext order.ends_eq
  rw [Iteration.edgeList, List.map_map, hends, List.map_id, order.edges.mem_iff]

theorem ends_of_mem_edgeList {order : Iteration} {graph : KGraph} {p : String × String}
    (hp : p ∈ order.edgeList graph) : p.1 ∈ graph.nodes.keys ∧ p.2 ∈ graph.nodes.keys := by
  have hmem : s(p.1, p.2) ∈ graph.edges.keys := mem_edgeList.mp (List.mem_map_of_mem hp)
  exact ⟨graph.ends _ hmem _ (Sym2.mem_mk_left _ _), graph.ends _ hmem _ (Sym2.mem_mk_right _ _)⟩

theorem grown_graphMerge (order : Iteration) (g1 g2 : SourcedGraph) :
    Grown g1.graph g2.graph (order.nodes.list g2.graph.nodes.keys) (order.edgeList g2.graph)
      ((graphMerge order g1 g2 {}).1.graph, (graphMerge order g1 g2 {}).2) := by
  have hnodes := grown_nodes g1.graph g2.graph (order.nodes.list g2.graph.nodes.keys)
  refine hnodes.foldl_edges fun p hp => ?_
  obtain ⟨hsource, htarget⟩ := ends_of_mem_edgeList hp
  rw [hnodes.nodes_eq, Finset.mem_union, Finset.mem_union, List.mem_toFinset, List.mem_toFinset,
    order.nodes.mem_iff, order.nodes.mem_iff]
  exact ⟨.inr hsource, .inr htarget⟩

theorem getFromTo_eq (p : String × String) :
    s((getFromTo p.1 p.2).1, (getFromTo p.1 p.2).2) = s(p.1, p.2) := by
  rw [getFromTo]
  split
  · rfl
  · exact Sym2.eq_swap

/-- Edges are recorded in one order of their ends. -/
theorem getFromTo_eq_of_eq {p q : String × String} (h : s(p.1, p.2) = s(q.1, q.2)) :
    getFromTo p.1 p.2 = getFromTo q.1 q.2 := by
  rcases Sym2.eq_iff.mp h with ⟨h1, h2⟩ | ⟨h1, h2⟩
  · rw [h1, h2]
  · rw [h1, h2, getFromTo_comm]

section

variable {order : Iteration} {store : KgStore} {subgraph : SourcedGraph} {graph : KGraph}
  {change : GraphChange}

/-- A change that only adds, and nothing that the stored graph has. -/
theorem carefulChange_of_new (h : Mirror store)
    (hremoved : change.removedNodes = ∅ ∧ change.removedEdges = ∅)
    (hadded : change.addedUpdatedNodes ⊆ graph.nodes.keys)
    (hnode : ∀ n ∈ change.addedUpdatedNodes, store.storedGraph.nodes.get? n = none)
    (hnodeKept : ∀ n ∉ change.addedUpdatedNodes,
      graph.nodes.get? n = store.storedGraph.nodes.get? n)
    (hedge : ∀ p ∈ writtenEdges graph change, store.storedGraph.edges.get? s(p.1, p.2) = none)
    (hedgeKept : ∀ e, (¬ ∃ p ∈ writtenEdges graph change, s(p.1, p.2) = e) →
      graph.edges.get? e = store.storedGraph.edges.get? e)
    (honce : ∀ p ∈ writtenEdges graph change, ∀ q ∈ writtenEdges graph change,
      s(p.1, p.2) = s(q.1, q.2) → p = q) :
    CarefulChange store graph change := by
  have hentities : store.keptEntities change = store.entities := by
    simp [KgStore.keptEntities, hremoved.1]
  have hrelations : store.keptRelations change = store.relations := by
    simp [KgStore.keptRelations, hremoved.2]
  rw [CarefulChange, if_pos hadded, hentities, hrelations]
  refine ⟨h.entities.fits (fun n hn => ?_) fun n hn => ?_,
    h.relations.fits (fun e he => ?_) fun e he => ?_, honce⟩
  · rw [nodeDescription, hnode n hn, Option.map_none]
  · rw [nodeDescription, nodeDescription, hnodeKept n hn]
  · obtain ⟨p, hp, rfl⟩ := he
    rw [edgeDescription, hedge p hp, Option.map_none]
  · rw [edgeDescription, edgeDescription, hedgeKept e he]

theorem mirror_mergeSubgraph_of_none (h : Mirror store) (hgraph : store.graph = none) :
    Mirror (storeLeft (mergeSubgraph order store subgraph)) := by
  have hstored : store.storedGraph = .empty := by rw [KgStore.storedGraph, hgraph]; rfl
  have hnode : ∀ n, store.storedGraph.nodes.get? n = none := fun n => by
    rw [hstored]
    exact Table.get?_empty n
  have hedge : ∀ e, store.storedGraph.edges.get? e = none := fun e => by
    rw [hstored]
    exact Table.get?_empty e
  rw [mergeSubgraph, hgraph]
  refine (mirror_setGraph_iff h).mpr (carefulChange_of_new h ⟨rfl, rfl⟩ (fun n hn => hn)
    (fun n _ => hnode n) (fun n hn => ?_) (fun p _ => hedge _) (fun e he => ?_)
    fun p hp q hq heq => ?_)
  · rw [hnode, Table.get?_eq_none_iff]
    exact hn
  · rw [hedge, Table.get?_eq_none_iff]
    intro hmem
    obtain ⟨p, hp, rfl⟩ := List.mem_map.mp ((@mem_edgeList order _ _).mpr hmem)
    exact he ⟨p, Finset.mem_filter.mpr ⟨List.mem_toFinset.mpr hp, hmem⟩, rfl⟩
  · obtain ⟨e, -, rfl⟩ := List.mem_map.mp (List.mem_toFinset.mp (Finset.mem_filter.mp hp).1)
    obtain ⟨e', -, rfl⟩ := List.mem_map.mp (List.mem_toFinset.mp (Finset.mem_filter.mp hq).1)
    rw [order.ends_eq, order.ends_eq] at heq
    rw [heq]

theorem mirror_mergeSubgraph_iff {oldGraph : SourcedGraph} (h : Mirror store)
    (hgraph : store.graph = some oldGraph) :
    Mirror (storeLeft (mergeSubgraph order store subgraph)) ↔
      Disjoint oldGraph.graph.nodes.keys subgraph.graph.nodes.keys := by
  have hstored : store.storedGraph = oldGraph.graph := by rw [KgStore.storedGraph, hgraph]; rfl
  have hgrown := grown_graphMerge order oldGraph subgraph
  have hmerge : mergeSubgraph order store subgraph =
      setGraph order store (graphMerge order oldGraph subgraph {}).1
        (graphMerge order oldGraph subgraph {}).2 := by
    rw [mergeSubgraph, hgraph]
  rw [hmerge, mirror_setGraph_iff h]
  generalize graphMerge order oldGraph subgraph {} = result at hgrown
  obtain ⟨⟨graph, sourceId⟩, change⟩ := result
  obtain ⟨hnodes, hedges, hnodeKept, hedgeKept, rfl⟩ := hgrown
  have hlist : (order.nodes.list subgraph.graph.nodes.keys).toFinset =
      subgraph.graph.nodes.keys := by
    ext n
    rw [List.mem_toFinset, order.nodes.mem_iff]
  have hadded : (order.nodes.list subgraph.graph.nodes.keys).toFinset ⊆ graph.nodes.keys := by
    rw [hnodes]
    exact Finset.subset_union_right
  constructor
  · intro hcareful
    rw [CarefulChange, if_pos hadded] at hcareful
    refine Finset.disjoint_left.mpr fun n hold hsub => ?_
    have hdescription : nodeDescription store.storedGraph n =
        some (oldGraph.graph.nodes.row n).description := by
      rw [hstored, nodeDescription, Table.get?_eq_some_iff.mpr ⟨hold, rfl⟩, Option.map_some]
    obtain ⟨c, hc, rfl, -⟩ := (h.entities.get_iff _ _).mp hdescription
    have hkept : c ∈ store.keptEntities
        { addedUpdatedNodes := (order.nodes.list subgraph.graph.nodes.keys).toFinset
          addedUpdatedEdges := ((order.edgeList subgraph.graph).map
            fun p => getFromTo p.1 p.2).toFinset } :=
      List.mem_filter.mpr ⟨hc, by simp⟩
    exact hcareful.1.fresh c hkept ((Finset.ext_iff.mp hlist _).mpr hsub)
  · intro hdisjoint
    have hwritten : ∀ p, p ∈ writtenEdges graph
        { addedUpdatedNodes := (order.nodes.list subgraph.graph.nodes.keys).toFinset
          addedUpdatedEdges := ((order.edgeList subgraph.graph).map
            fun p => getFromTo p.1 p.2).toFinset } →
        ∃ q ∈ order.edgeList subgraph.graph, p = getFromTo q.1 q.2 := by
      intro p hp
      obtain ⟨q, hq, rfl⟩ := List.mem_map.mp (List.mem_toFinset.mp (Finset.mem_filter.mp hp).1)
      exact ⟨q, hq, rfl⟩
    refine carefulChange_of_new h ⟨rfl, rfl⟩ hadded (fun n hn => ?_) (fun n hn => ?_)
      (fun p hp => ?_) (fun e he => ?_) fun p hp q hq heq => ?_
    · rw [hstored, Table.get?_eq_none_iff]
      exact Finset.disjoint_right.mp hdisjoint (hlist ▸ hn)
    · rw [hstored]
      exact hnodeKept n fun hmem => hn (List.mem_toFinset.mpr hmem)
    · obtain ⟨q, hq, rfl⟩ := hwritten p hp
      rw [hstored, getFromTo_eq, Table.get?_eq_none_iff]
      intro hmem
      exact Finset.disjoint_left.mp hdisjoint
        (oldGraph.graph.ends _ hmem _ (Sym2.mem_mk_left _ _)) (ends_of_mem_edgeList hq).1
    · rw [hstored]
      refine hedgeKept e fun hmem => he ?_
      obtain ⟨q, hq, rfl⟩ := List.mem_map.mp hmem
      refine ⟨getFromTo q.1 q.2, Finset.mem_filter.mpr ⟨?_, ?_⟩, getFromTo_eq q⟩
      · exact List.mem_toFinset.mpr (List.mem_map_of_mem hq)
      · rw [getFromTo_eq, hedges]
        exact Finset.mem_union_right _ (List.mem_toFinset.mpr hmem)
    · obtain ⟨p, -, rfl⟩ := hwritten p hp
      obtain ⟨q, -, rfl⟩ := hwritten q hq
      rw [getFromTo_eq, getFromTo_eq] at heq
      exact getFromTo_eq_of_eq heq

/-! ## Runs -/

theorem mirror_run_iff (h : Mirror store) (call : KgCall) :
    Mirror (storeLeft (call.run order store)) ↔ Careful store call := by
  cases call with
  | mergeSubgraph subgraph =>
      cases hgraph : store.graph with
      | none =>
          have hmirror : Mirror (storeLeft (mergeSubgraph order store subgraph)) :=
            mirror_mergeSubgraph_of_none h hgraph
          exact iff_of_true hmirror fun oldGraph hold => by rw [hgraph] at hold; cases hold
      | some oldGraph =>
          refine (mirror_mergeSubgraph_iff h hgraph).trans ⟨fun hdisjoint old hold => ?_,
            fun hcareful => hcareful oldGraph hgraph⟩
          rw [hgraph] at hold
          exact Option.some.inj hold ▸ hdisjoint
  | resolveEntities graph reso => exact mirror_setGraph_iff h
  | setGraph graph change => exact mirror_setGraph_iff h

end

theorem storedAfter_append_singleton (calls : List (Iteration × KgCall))
    (call : Iteration × KgCall) :
    storedAfter (calls ++ [call]) = storeLeft (call.2.run call.1 (storedAfter calls)) := by
  rw [storedAfter, List.foldl_append]
  rfl

/-- The chunks mirror the stored graph after every call of a run exactly when every call was
careful about the store that it found. -/
theorem mirror_iff_careful (calls : List (Iteration × KgCall)) :
    (∀ before, before <+: calls → Mirror (storedAfter before)) ↔
      ∀ before call, before ++ [call] <+: calls → Careful (storedAfter before) call.2 := by
  constructor
  · intro h before call hbefore
    have hnext := h _ hbefore
    rw [storedAfter_append_singleton] at hnext
    exact (mirror_run_iff (h before ((List.prefix_append _ _).trans hbefore)) call.2).mp hnext
  · intro hcareful before hbefore
    induction before using List.reverseRecOn with
    | nil =>
        refine (mirror_iff_of_graph_eq rfl).mpr ?_
        rw [show (KgStore.storedGraph (storedAfter [])) = .empty from rfl, nodeDescription_empty,
          edgeDescription_empty]
        exact ⟨indexes_none_iff.mpr rfl, indexes_none_iff.mpr rfl⟩
    | append_singleton before call ih =>
        rw [storedAfter_append_singleton]
        exact (mirror_run_iff (ih ((List.prefix_append _ _).trans hbefore)) call.2).mpr
          (hcareful before call hbefore)

/-! ## Resolution -/

section

variable {summary : String → String → String} {visit : Visit String} {order : Iteration}
  {store : KgStore} {graph : KGraph} {node0 node1 : String} {removed : List String}

theorem nodes_mergeEdge (nodes : List String) (node0Neighbors : Finset String)
    (s : KGraph × GraphChange) (neighbor : String) :
    let change := (mergeEdge summary nodes node0 node0Neighbors node1 s neighbor).2
    change.addedUpdatedNodes = s.2.addedUpdatedNodes ∧ change.removedNodes = s.2.removedNodes := by
  simp only [mergeEdge]
  split
  · exact ⟨rfl, rfl⟩
  · split_ifs
    · exact ⟨rfl, rfl⟩
    · split
      · exact ⟨rfl, rfl⟩
      · exact ⟨rfl, rfl⟩
    · exact ⟨rfl, rfl⟩

theorem nodes_mergeNode (nodes : List String) (node0Neighbors : Finset String)
    (s : KGraph × GraphChange) (node1 : String) :
    let change := (mergeNode summary visit nodes node0 node0Neighbors s node1).2
    change.addedUpdatedNodes = s.2.addedUpdatedNodes ∧ change.removedNodes = s.2.removedNodes := by
  rw [mergeNode]
  refine List.foldlRecOn _ _ (b := (mergeNodeAttrs s.1 node0 node1, s.2))
    (motive := fun t => t.2.addedUpdatedNodes = s.2.addedUpdatedNodes ∧
      t.2.removedNodes = s.2.removedNodes) ⟨rfl, rfl⟩ fun t ht neighbor _ => ?_
  obtain ⟨hadded, hremoved⟩ := nodes_mergeEdge nodes node0Neighbors t neighbor
  exact ⟨hadded.trans ht.1, hremoved.trans ht.2⟩

theorem nodes_mergeGraphNodes (summary : String → String → String) (visit : Visit String)
    (graph : KGraph) (node0 node1 : String) (removed : List String) :
    let change := (mergeGraphNodes summary visit graph (node0 :: node1 :: removed) {}).2
    change.addedUpdatedNodes = {node0} ∧ change.removedNodes = (node1 :: removed).toFinset := by
  unfold mergeGraphNodes
  refine List.foldlRecOn _ _ (b := (graph, _))
    (motive := fun t : KGraph × GraphChange => t.2.addedUpdatedNodes = {node0} ∧
      t.2.removedNodes = (node1 :: removed).toFinset) ⟨rfl, Finset.empty_union _⟩
    fun t ht node _ => ?_
  obtain ⟨hadded, hremoved⟩ := nodes_mergeNode _ _ t node
  exact ⟨hadded.trans ht.1, hremoved.trans ht.2⟩

/-- Entity resolution adds the first of some equal nodes again, whose chunk stays. -/
theorem not_careful_mergeGraphNodes (h : Mirror store) {node0 : String}
    (hnode0 : node0 ∈ store.storedGraph.nodes.keys) (hnew : node0 ∉ node1 :: removed)
    (graph : SourcedGraph) :
    ¬ Careful store (.resolveEntities graph fun graph =>
      mergeGraphNodes summary visit graph (node0 :: node1 :: removed) {}) := by
  obtain ⟨hadded, hremoved⟩ :=
    nodes_mergeGraphNodes summary visit graph.graph node0 node1 removed
  have hdescription : nodeDescription store.storedGraph node0 =
      some (store.storedGraph.nodes.row node0).description := by
    rw [nodeDescription, Table.get?_eq_some_iff.mpr ⟨hnode0, rfl⟩, Option.map_some]
  obtain ⟨c, hc, hname, -⟩ := (h.entities.get_iff _ _).mp hdescription
  intro hcareful
  rw [Careful] at hcareful
  generalize mergeGraphNodes summary visit graph.graph _ {} = result at *
  have hkept : c ∈ store.keptEntities result.2 := by
    refine List.mem_filter.mpr ⟨hc, decide_eq_true ?_⟩
    rw [hremoved, hname, List.mem_toFinset]
    exact hnew
  rw [CarefulChange] at hcareful
  split at hcareful
  · refine hcareful.1.fresh c hkept ?_
    rw [hadded, hname]
    exact Finset.mem_singleton_self node0
  · exact List.ne_nil_of_mem hkept hcareful.1

end

/-! ## A shared node -/

theorem mk_inf_sup (e : Sym2 String) : s(e.inf, e.sup) = e := by
  induction e with
  | _ u v =>
      rcases le_total u v with hle | hle
      · simp [hle]
      · simp [hle, Sym2.eq_swap]

def sortedIteration : Iteration where
  nodes := visitSorted
  edges := (Visit.sorted (String ×ₗ String)).comap (fun e => toLex (e.inf, e.sup))
    (fun p => s((ofLex p).1, (ofLex p).2)) mk_inf_sup
  pairs := (Visit.sorted (String ×ₗ String)).comap toLex ofLex fun _ => rfl
  ends e := (e.inf, e.sup)
  ends_eq := mk_inf_sup

/-- Two documents about one person. -/
def merges : List (Iteration × KgCall) :=
  [(sortedIteration, .mergeSubgraph ⟨edgeless {"A"}, ["first"]⟩),
    (sortedIteration, .mergeSubgraph ⟨edgeless {"A"}, ["second"]⟩)]

/-- The person has two entity chunks. -/
theorem not_mirror_shared_node : ¬ Mirror (storedAfter merges) := by
  intro h
  exact absurd h.entities.nodup (by decide +kernel)

end RagflowMineru.GraphRag
