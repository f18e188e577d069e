import Mathlib.Data.List.Flatten
import RagflowMineru.GraphRag.KnowledgeGraph

/-!
# Rebuilding the graph without a document

Removing a document takes its id out of the rows of the graph, and
`rebuild_graph` composes the subgraphs that are left.  The sources of a node are
put together; those of an edge are the ones that the last subgraph with the edge
has, and `set_graph` writes an edge with all its sources into every subgraph.
-/

namespace RagflowMineru.GraphRag

open Library

/-- The subgraph that is stored for a document; its nodes have the document as
their only source. -/
structure DocSubgraph where
  doc : String
  graph : KGraph
  own : ∀ n ∈ graph.nodes.keys, (graph.nodes.row n).sourceId = [doc]

/-- A stored row of kind `subgraph`. -/
structure SubgraphRow where
  sourceId : List String
  graph : KGraph

/-- A stored row of kind `graph`. -/
structure GraphRow where
  sourceId : List String
  removedKwd : Bool := false

structure GraphStore where
  graph : Option GraphRow
  subgraphs : List SubgraphRow

def DocSubgraph.row (s : DocSubgraph) : SubgraphRow := ⟨[s.doc], s.graph⟩

/-- The graph part of `remove_document`: rows that list the document lose it, the graph is
marked as removed, and rows without a source are deleted. -/
def removeDocument (store : GraphStore) (docId : String) : GraphStore :=
  match store.graph with
  | none => store
  | some row =>
      if docId ∈ row.sourceId then
        let sourceId := row.sourceId.erase docId
        { graph := if sourceId = [] then none else some { sourceId, removedKwd := true }
          subgraphs := (store.subgraphs.map fun row =>
            { row with sourceId := row.sourceId.erase docId }).filter (·.sourceId ≠ []) }
      else store

/-- The argument `exclude_rebuild`. -/
inductive ExcludeRebuild where
  | none
  | doc (id : String)
  | docs (ids : List String)

def ExcludeRebuild.excludes : ExcludeRebuild → List String → Bool
  | none, _ => false
  | doc id, sourceId => id ∈ sourceId
  | docs ids, sourceId => ids.any (· ∈ sourceId)

/-- `bs`. -/
def pageSize : ℕ := 256

/-- A graph with its `source_id`, which is missing at the start. -/
structure Rebuilding where
  graph : KGraph := .empty
  sourceId : Option (List String) := none

/-- `nx.compose`, with the sources of common nodes put together. -/
def composeSources (graph next : KGraph) : KGraph :=
  (graph.compose next).mapNodes fun n attrs =>
    if n ∈ graph.nodes.keys ∧ n ∈ next.nodes.keys then
      { attrs with sourceId := (graph.nodes.row n).sourceId ++ (next.nodes.row n).sourceId }
    else attrs

def rebuildRow (exclude : ExcludeRebuild) (s : Rebuilding) (row : SubgraphRow) : Rebuilding :=
  if exclude.excludes row.sourceId then s
  else
    { graph := composeSources s.graph row.graph
      sourceId := some (s.sourceId.getD [] ++ row.sourceId) }

/-- The loop over at most so many pages, from a row on. -/
def rebuildPages (exclude : ExcludeRebuild) (rows : List SubgraphRow) :
    ℕ → ℕ → Rebuilding → Rebuilding
  | 0, _, s => s
  | pages + 1, i, s =>
      let page := (rows.drop i).take pageSize
      if page = [] then s
      else rebuildPages exclude rows pages (i + pageSize) (page.foldl (rebuildRow exclude) s)

/-- The graph with its sources in order, or nothing when no node is left. -/
def rebuildGraph (rows : List SubgraphRow) (exclude : ExcludeRebuild) :
    Option (KGraph × List String) :=
  let s := rebuildPages exclude rows 1024 0 {}
  if s.graph.nodes.keys = ∅ then none
  else some (s.graph, (s.sourceId.getD []).insertionSort (· ≤ ·))

/-! ## The rows that are composed -/

theorem rebuildPages_eq (exclude : ExcludeRebuild) (rows : List SubgraphRow) (pages i : ℕ)
    (s : Rebuilding) :
    rebuildPages exclude rows pages i s =
      ((rows.drop i).take (pages * pageSize)).foldl (rebuildRow exclude) s := by
  induction pages generalizing i s with
  | zero => simp [rebuildPages]
  | succ pages ih =>
      rw [rebuildPages, Nat.succ_mul, Nat.add_comm (pages * pageSize), List.take_add,
        List.foldl_append, ih, List.drop_drop]
      by_cases hpage : (rows.drop i).take pageSize = []
      · have hdrop : rows.drop i = [] := (List.take_eq_nil_iff.mp hpage).resolve_left (by decide)
        rw [if_pos hpage, hpage, ← List.drop_drop, hdrop, List.drop_nil, List.take_nil]
        rfl
      · rw [if_neg hpage]

section

variable (graphRow : Option GraphRow) (docs : List DocSubgraph) (removed : String)
  (exclude : ExcludeRebuild)

/-- The subgraphs of which a row is stored after the removal. -/
def left : List DocSubgraph :=
  if graphRow.any (removed ∈ ·.sourceId) then docs.filter (·.doc ≠ removed) else docs

/-- The subgraphs that are composed. -/
def visited : List DocSubgraph :=
  ((left graphRow docs removed).take (1024 * pageSize)).filter fun s => !exclude.excludes [s.doc]

/-- The subgraphs that should be composed. -/
def remaining : List DocSubgraph :=
  docs.filter fun s => s.doc ≠ removed ∧ !exclude.excludes [s.doc]

def composeAll (subgraphs : List DocSubgraph) : KGraph :=
  subgraphs.foldl (fun graph s => composeSources graph s.graph) .empty

theorem subgraphs_removeDocument :
    (removeDocument ⟨graphRow, docs.map DocSubgraph.row⟩ removed).subgraphs =
      (left graphRow docs removed).map DocSubgraph.row := by
  have hrows : ((docs.map DocSubgraph.row).map fun row =>
      { row with sourceId := row.sourceId.erase removed }).filter (·.sourceId ≠ []) =
        (docs.filter (·.doc ≠ removed)).map DocSubgraph.row := by
    rw [List.map_map]
    induction docs with
    | nil => rfl
    | cons s docs ih =>
        by_cases hdoc : s.doc = removed
        · simpa [DocSubgraph.row, hdoc] using ih
        · simpa [DocSubgraph.row, hdoc, List.erase_cons] using ih
  cases graphRow with
  | none => rfl
  | some row =>
      by_cases hlisted : removed ∈ row.sourceId
      · simpa [removeDocument, left, hlisted] using hrows
      · simp [removeDocument, left, hlisted]

theorem foldl_rebuildRow (subgraphs : List DocSubgraph) (s : Rebuilding) :
    ((subgraphs.map DocSubgraph.row).foldl (rebuildRow exclude) s).graph =
      (subgraphs.filter fun s => !exclude.excludes [s.doc]).foldl
        (fun graph s => composeSources graph s.graph) s.graph := by
  induction subgraphs generalizing s with
  | nil => rfl
  | cons subgraph subgraphs ih =>
      rw [List.map_cons, List.foldl_cons, ih, rebuildRow]
      cases hexclude : exclude.excludes [subgraph.doc] <;>
        simp [DocSubgraph.row, hexclude]

end

/-! ## The composed graph -/

section

variable {subgraphs : List DocSubgraph} {s : DocSubgraph} {n : String} {e : Sym2 String}

/-- An edge in the last subgraph that has it. -/
def lastEdge (subgraphs : List DocSubgraph) (e : Sym2 String) : Option EdgeAttrs :=
  subgraphs.reverse.findSome? fun s => s.graph.edges.get? e

theorem composeAll_append_singleton (subgraphs : List DocSubgraph) (s : DocSubgraph) :
    composeAll (subgraphs ++ [s]) = composeSources (composeAll subgraphs) s.graph := by
  rw [composeAll, List.foldl_append]
  rfl

theorem mem_nodes_composeAll :
    n ∈ (composeAll subgraphs).nodes.keys ↔ ∃ s ∈ subgraphs, n ∈ s.graph.nodes.keys := by
  induction subgraphs using List.reverseRecOn with
  | nil => simp [composeAll, AttrGraph.empty, Table.empty]
  | append_singleton subgraphs s ih =>
      rw [composeAll_append_singleton]
      refine Finset.mem_union.trans ((or_congr_left ih).trans ?_)
      simp [or_and_right, exists_or]

theorem get?_edges_composeAll :
    (composeAll subgraphs).edges.get? e = lastEdge subgraphs e := by
  induction subgraphs using List.reverseRecOn with
  | nil => exact Table.get?_empty e
  | append_singleton subgraphs s ih =>
      rw [composeAll_append_singleton, lastEdge, List.reverse_append]
      refine (Table.get?_overlay _ _ e).trans ?_
      rw [ih]
      cases hedge : s.graph.edges.get? e <;> simp [hedge, lastEdge]

theorem mem_edges_composeAll :
    e ∈ (composeAll subgraphs).edges.keys ↔ ∃ s ∈ subgraphs, e ∈ s.graph.edges.keys := by
  rw [Table.mem_keys_iff, get?_edges_composeAll, lastEdge, ne_eq, List.findSome?_eq_none_iff]
  push Not
  simp only [List.mem_reverse, Table.mem_keys_iff, ne_eq]

/-- The sources of a node are the documents of the subgraphs with the node. -/
theorem sourceId_composeAll (hn : n ∈ (composeAll subgraphs).nodes.keys) :
    ((composeAll subgraphs).nodes.row n).sourceId =
      (subgraphs.filter fun s => n ∈ s.graph.nodes.keys).map DocSubgraph.doc := by
  induction subgraphs using List.reverseRecOn with
  | nil => exact absurd hn (Finset.notMem_empty n)
  | append_singleton subgraphs s ih =>
      have hrow : ((composeAll (subgraphs ++ [s])).nodes.row n).sourceId =
          if n ∈ (composeAll subgraphs).nodes.keys ∧ n ∈ s.graph.nodes.keys then
            ((composeAll subgraphs).nodes.row n).sourceId ++ (s.graph.nodes.row n).sourceId
          else if n ∈ s.graph.nodes.keys then (s.graph.nodes.row n).sourceId
          else ((composeAll subgraphs).nodes.row n).sourceId := by
        rw [composeAll_append_singleton]
        simp only [composeSources, AttrGraph.mapNodes, AttrGraph.compose, Table.overlay]
        split_ifs <;> rfl
      rw [hrow, List.filter_append, List.map_append]
      by_cases hbefore : n ∈ (composeAll subgraphs).nodes.keys
      · by_cases hnext : n ∈ s.graph.nodes.keys
        · rw [if_pos ⟨hbefore, hnext⟩, ih hbefore, s.own n hnext]
          simp [hnext]
        · rw [if_neg fun h => hnext h.2, if_neg hnext, ih hbefore]
          simp [hnext]
      · have hnone : subgraphs.filter (fun s => n ∈ s.graph.nodes.keys) = [] := by
          rw [List.filter_eq_nil_iff]
          intro s' hs'
          simpa using fun hmem => hbefore (mem_nodes_composeAll.mpr ⟨s', hs', hmem⟩)
        have hnext : n ∈ s.graph.nodes.keys := by
          obtain ⟨s', hs', hmem⟩ := mem_nodes_composeAll.mp hn
          rcases List.mem_append.mp hs' with hs' | hs'
          · exact absurd (mem_nodes_composeAll.mpr ⟨s', hs', hmem⟩) hbefore
          · rwa [← List.mem_singleton.mp hs']
        rw [if_neg fun h => hbefore h.1, if_pos hnext, hnone, s.own n hnext]
        simp [hnext]

end

/-! ## Removal -/

/-- The graph that is returned; nothing stands for no nodes. -/
def graphOf (result : Option (KGraph × List String)) : KGraph :=
  (result.map Prod.fst).getD .empty

/-- The graph has the nodes and edges of the remaining subgraphs, and nothing in it has the
removed document as a source. -/
structure Forgets (docs : List DocSubgraph) (removed : String) (exclude : ExcludeRebuild)
    (graph : KGraph) : Prop where
  nodes : ∀ n, n ∈ graph.nodes.keys ↔
    ∃ s ∈ remaining docs removed exclude, n ∈ s.graph.nodes.keys
  edges : ∀ e, e ∈ graph.edges.keys ↔
    ∃ s ∈ remaining docs removed exclude, e ∈ s.graph.edges.keys
  node_sources : ∀ n attrs, graph.nodes.get? n = some attrs → removed ∉ attrs.sourceId
  edge_sources : ∀ e attrs, graph.edges.get? e = some attrs → removed ∉ attrs.sourceId

variable {graphRow : Option GraphRow} {docs : List DocSubgraph} {removed : String}
  {exclude : ExcludeRebuild}

theorem rebuildPages_removeDocument :
    (rebuildPages exclude (removeDocument ⟨graphRow, docs.map DocSubgraph.row⟩ removed).subgraphs
        1024 0 {}).graph =
      composeAll (visited graphRow docs removed exclude) := by
  rw [rebuildPages_eq, subgraphs_removeDocument, List.drop_zero, ← List.map_take,
    foldl_rebuildRow]
  rfl

/-- A graph without nodes is no graph. -/
theorem get?_graphOf_rebuildGraph (n : String) (e : Sym2 String) :
    let graph := graphOf (rebuildGraph
      (removeDocument ⟨graphRow, docs.map DocSubgraph.row⟩ removed).subgraphs exclude)
    graph.nodes.get? n = (composeAll (visited graphRow docs removed exclude)).nodes.get? n ∧
      graph.edges.get? e = (composeAll (visited graphRow docs removed exclude)).edges.get? e := by
  simp only [rebuildGraph, rebuildPages_removeDocument]
  split
  · rename_i hnone
    have hnodes : ∀ n, n ∉ (composeAll (visited graphRow docs removed exclude)).nodes.keys :=
      Finset.eq_empty_iff_forall_notMem.mp hnone
    have hedge : e ∉ (composeAll (visited graphRow docs removed exclude)).edges.keys := by
      induction e with
      | _ u v => exact fun he => hnodes u (AttrGraph.ends _ _ he u (Sym2.mem_mk_left u v))
    rw [Table.get?_eq_none_iff.mpr (hnodes n), Table.get?_eq_none_iff.mpr hedge]
    exact ⟨Table.get?_empty n, Table.get?_empty e⟩
  · exact ⟨rfl, rfl⟩

theorem Forgets.congr {graph graph' : KGraph}
    (h : ∀ n e, graph.nodes.get? n = graph'.nodes.get? n ∧
      graph.edges.get? e = graph'.edges.get? e) :
    Forgets docs removed exclude graph ↔ Forgets docs removed exclude graph' := by
  have hnodes : ∀ n, graph.nodes.get? n = graph'.nodes.get? n := fun n => (h n s(n, n)).1
  have hedges : ∀ e, graph.edges.get? e = graph'.edges.get? e := fun e => (h "" e).2
  constructor
  · rintro ⟨hn, he, hns, hes⟩
    simp only [Table.mem_keys_iff, hnodes, hedges] at hn he hns hes
    exact ⟨by simpa only [Table.mem_keys_iff] using hn,
      by simpa only [Table.mem_keys_iff] using he, hns, hes⟩
  · rintro ⟨hn, he, hns, hes⟩
    simp only [Table.mem_keys_iff, ← hnodes, ← hedges] at hn he hns hes
    exact ⟨by simpa only [Table.mem_keys_iff] using hn,
      by simpa only [Table.mem_keys_iff] using he, hns, hes⟩

/-- Nothing that is composed is about the removed document, and nothing is left out. -/
structure Clean (docs : List DocSubgraph) (removed : String) (exclude : ExcludeRebuild)
    (composed : List DocSubgraph) : Prop where
  dropped : ∀ s ∈ composed, s.doc = removed → s.graph.nodes.keys = ∅
  nodes : ∀ s ∈ remaining docs removed exclude, ∀ n ∈ s.graph.nodes.keys,
    ∃ s' ∈ composed, n ∈ s'.graph.nodes.keys
  edges : ∀ s ∈ remaining docs removed exclude, ∀ e ∈ s.graph.edges.keys,
    ∃ s' ∈ composed, e ∈ s'.graph.edges.keys
  edge_sources : ∀ e attrs, lastEdge composed e = some attrs → removed ∉ attrs.sourceId

theorem mem_remaining {s : DocSubgraph} (hs : s ∈ visited graphRow docs removed exclude)
    (hdoc : s.doc ≠ removed) : s ∈ remaining docs removed exclude := by
  obtain ⟨hs, hexclude⟩ := List.mem_filter.mp hs
  have hmem : s ∈ docs := by
    have hleft := List.mem_of_mem_take hs
    rw [left] at hleft
    split at hleft
    · exact List.mem_of_mem_filter hleft
    · exact hleft
  exact List.mem_filter.mpr ⟨hmem, by simpa [hdoc] using hexclude⟩

theorem forgets_composeAll_iff :
    Forgets docs removed exclude (composeAll (visited graphRow docs removed exclude)) ↔
      Clean docs removed exclude (visited graphRow docs removed exclude) := by
  constructor
  · intro h
    refine ⟨fun s hs hdoc => ?_, fun s hs n hn => ?_, fun s hs e he => ?_, fun e attrs he => ?_⟩
    · refine Finset.eq_empty_of_forall_notMem fun n hn => ?_
      have hmem := mem_nodes_composeAll.mpr ⟨s, hs, hn⟩
      refine h.node_sources n _ (Table.get?_eq_some_iff.mpr ⟨hmem, rfl⟩) ?_
      have hsource : s.doc ∈ ((visited graphRow docs removed exclude).filter
          fun s => n ∈ s.graph.nodes.keys).map DocSubgraph.doc :=
        List.mem_map_of_mem (List.mem_filter.mpr ⟨hs, by simpa using hn⟩)
      rw [sourceId_composeAll hmem]
      rwa [hdoc] at hsource
    · exact mem_nodes_composeAll.mp ((h.nodes n).mpr ⟨s, hs, hn⟩)
    · exact mem_edges_composeAll.mp ((h.edges e).mpr ⟨s, hs, he⟩)
    · exact h.edge_sources e attrs (get?_edges_composeAll.trans he)
  · intro h
    have hremaining : ∀ s ∈ visited graphRow docs removed exclude, ∀ n ∈ s.graph.nodes.keys,
        s ∈ remaining docs removed exclude := by
      intro s hs n hn
      refine mem_remaining hs fun hdoc => ?_
      exact Finset.notMem_empty n (h.dropped s hs hdoc ▸ hn)
    refine ⟨fun n => ?_, fun e => ?_, fun n attrs hn hsource => ?_, fun e attrs he => ?_⟩
    · rw [mem_nodes_composeAll]
      constructor
      · rintro ⟨s, hs, hn⟩
        exact ⟨s, hremaining s hs n hn, hn⟩
      · rintro ⟨s, hs, hn⟩
        exact h.nodes s hs n hn
    · rw [mem_edges_composeAll]
      constructor
      · rintro ⟨s, hs, he⟩
        induction e with
        | _ u v =>
            have hu := s.graph.ends _ he u (Sym2.mem_mk_left u v)
            exact ⟨s, hremaining s hs u hu, he⟩
      · rintro ⟨s, hs, he⟩
        exact h.edges s hs e he
    · obtain ⟨hmem, rfl⟩ := Table.get?_eq_some_iff.mp hn
      rw [sourceId_composeAll hmem] at hsource
      obtain ⟨s, hs, hdoc⟩ := List.mem_map.mp hsource
      obtain ⟨hs, hn⟩ := List.mem_filter.mp hs
      have hn : n ∈ s.graph.nodes.keys := by simpa using hn
      exact Finset.notMem_empty n (h.dropped s hs hdoc ▸ hn)
    · exact h.edge_sources e attrs (get?_edges_composeAll.symm.trans he)

/-- A subgraph with the entities A and B and a relation that lists some documents. -/
def pairSubgraph (doc : String) (sources : List String) : DocSubgraph where
  doc := doc
  graph :=
    ((edgeless {"A", "B"}).mapNodes fun _ attrs => { attrs with sourceId := [doc] }).setEdge
      "A" "B" { relation 1 with sourceId := sources }
  own := by
    intro n _
    rw [AttrGraph.nodes_setEdge]
    rfl

end RagflowMineru.GraphRag
