import RagflowMineru.GraphRag.KnowledgeGraph
import Mathlib.Algebra.Field.Rat
import Mathlib.Algebra.Order.Ring.Rat

/-!
# Merging graph nodes

`_merge_graph_nodes` moves the edges of the nodes that were found equal to the
first of them.  The neighbours of the first node are read once, before the loop.
An edge to any other neighbour is written over what an earlier node of the list
has put there, and is not recorded as added.
-/

namespace RagflowMineru.GraphRag

open Library

section

/- The summary of a description that has grown, under the name of what it describes; equal
calls are answered from the cache. -/
variable (summary : String → String → String) (visit : Visit String)

/-- The merged attributes of two edges. -/
def mergeAttrs (name : String) (edge0Attrs edge1Attrs : EdgeAttrs) : EdgeAttrs where
  weight := edge0Attrs.weight + edge1Attrs.weight
  description :=
    summary name (edge0Attrs.description ++ graphFieldSep ++ edge1Attrs.description)
  keywords := sortedSet (edge0Attrs.keywords ++ edge1Attrs.keywords)
  sourceId := sortedSet (edge0Attrs.sourceId ++ edge1Attrs.sourceId)

def edgeName (node0 neighbor : String) : String := "(" ++ node0 ++ ", " ++ neighbor ++ ")"

/-- The body of the loop over the neighbours of `node1`. -/
def mergeEdge (nodes : List String) (node0 : String) (node0Neighbors : Finset String)
    (node1 : String) (s : KGraph × GraphChange) (neighbor : String) : KGraph × GraphChange :=
  let (graph, change) := s
  let change := { change with
    removedEdges := insert (getFromTo node1 neighbor) change.removedEdges }
  match graph.edge? node1 neighbor with
  | none => (graph, change)
  | some edge1Attrs =>
      if neighbor ∈ nodes then (graph, change)
      else if neighbor ∈ node0Neighbors then
        match graph.edge? node0 neighbor with
        | none => (graph, change)
        | some edge0Attrs =>
            (graph.setEdge node0 neighbor
                (mergeAttrs summary (edgeName node0 neighbor) edge0Attrs edge1Attrs),
              { change with
                addedUpdatedEdges := insert (getFromTo node0 neighbor) change.addedUpdatedEdges })
      else (graph.setEdge node0 neighbor edge1Attrs, change)

/-- Description and sources of `node1`, added to those of `node0`. -/
def mergeNodeAttrs (graph : KGraph) (node0 node1 : String) : KGraph :=
  match graph.nodes.get? node1 with
  | none => graph
  | some node1Attrs =>
      graph.updateNode node0 fun node0Attrs =>
        { node0Attrs with
          description := node0Attrs.description ++ graphFieldSep ++ node1Attrs.description
          sourceId := sortedSet (node0Attrs.sourceId ++ node1Attrs.sourceId) }

/-- The body of the loop over the nodes after the first. -/
def mergeNode (nodes : List String) (node0 : String) (node0Neighbors : Finset String)
    (s : KGraph × GraphChange) (node1 : String) : KGraph × GraphChange :=
  let start := (mergeNodeAttrs s.1 node0 node1, s.2)
  let s := (visit.list (start.1.neighbors node1)).foldl
    (mergeEdge summary nodes node0 node0Neighbors node1) start
  (s.1.removeNode node1, s.2)

/-- `_merge_graph_nodes` in a run that is not cancelled. -/
def mergeGraphNodes (graph : KGraph) (nodes : List String) (change : GraphChange) :
    KGraph × GraphChange :=
  match nodes with
  | [] | [_] => (graph, change)
  | node0 :: removed =>
      let change := { change with
        addedUpdatedNodes := insert node0 change.addedUpdatedNodes
        removedNodes := change.removedNodes ∪ removed.toFinset }
      let (graph, change) := removed.foldl
        (mergeNode summary visit nodes node0 (graph.neighbors node0)) (graph, change)
      (graph.updateNode node0 fun node0Attrs =>
        { node0Attrs with description := summary node0 node0Attrs.description }, change)

/-- What the edges of one neighbour come to. -/
def combine (name : String) : List EdgeAttrs → Option EdgeAttrs
  | [] => none
  | attrs :: rest => some (rest.foldl (mergeAttrs summary name) attrs)

end

/-- The edges between some nodes and a neighbour, in the order of the nodes. -/
def edgesTo (graph : KGraph) (nodes : List String) (neighbor : String) : List EdgeAttrs :=
  nodes.filterMap fun node => graph.edge? node neighbor

theorem edgesTo_append_none {graph : KGraph} {node neighbor : String} (nodes : List String)
    (h : graph.edge? node neighbor = none) :
    edgesTo graph (nodes ++ [node]) neighbor = edgesTo graph nodes neighbor := by
  simp [edgesTo, h]

theorem edgesTo_append_some {graph : KGraph} {node neighbor : String} {attrs : EdgeAttrs}
    (nodes : List String) (h : graph.edge? node neighbor = some attrs) :
    edgesTo graph (nodes ++ [node]) neighbor = edgesTo graph nodes neighbor ++ [attrs] := by
  simp [edgesTo, h]

/-! ## One neighbour -/

section

variable {summary : String → String → String} {nodes : List String} {node0 node1 neighbor : String}
  {node0Neighbors : Finset String} {graph : KGraph} {change : GraphChange}
  {edge0Attrs edge1Attrs : EdgeAttrs}

/-- An edge of a merged node is no edge between the first node and an outside neighbour. -/
theorem ne_outer {n m : String} (hnode1 : node1 ∈ nodes) (hne : node1 ≠ node0) (hn : n ∉ nodes) :
    s(node1, m) ≠ s(node0, n) := by
  intro heq
  rcases Sym2.eq_iff.mp heq with ⟨h, -⟩ | ⟨h, -⟩
  · exact hne h
  · exact hn (h ▸ hnode1)

theorem mergeEdge_inside (hneighbor : neighbor ∈ nodes) :
    mergeEdge summary nodes node0 node0Neighbors node1 (graph, change) neighbor =
      (graph, { change with
        removedEdges := insert (getFromTo node1 neighbor) change.removedEdges }) := by
  simp only [mergeEdge, if_pos hneighbor]
  split <;> rfl

theorem mergeEdge_shared (hneighbor : neighbor ∉ nodes) (hshared : neighbor ∈ node0Neighbors)
    (hedge1 : graph.edge? node1 neighbor = some edge1Attrs)
    (hedge0 : graph.edge? node0 neighbor = some edge0Attrs) :
    mergeEdge summary nodes node0 node0Neighbors node1 (graph, change) neighbor =
      (graph.setEdge node0 neighbor
          (mergeAttrs summary (edgeName node0 neighbor) edge0Attrs edge1Attrs),
        { change with
          removedEdges := insert (getFromTo node1 neighbor) change.removedEdges
          addedUpdatedEdges := insert (getFromTo node0 neighbor) change.addedUpdatedEdges }) := by
  simp only [mergeEdge, hedge1, if_neg hneighbor, if_pos hshared, hedge0]

/-- What the loop over the neighbours of `node1` has done after the first ones. -/
structure Moved (summary : String → String → String) (nodes : List String) (node0 node1 : String)
    (start : KGraph × GraphChange) (seen : List String) (s : KGraph × GraphChange) : Prop where
  nodes_eq : s.1.nodes = start.1.nodes
  kept : ∀ e, (∀ n ∈ seen, n ∉ nodes → e ≠ s(node0, n)) → s.1.edges.get? e = start.1.edges.get? e
  merged : ∀ n ∈ seen, n ∉ nodes → ∀ edge0Attrs edge1Attrs,
    start.1.edge? node0 n = some edge0Attrs → start.1.edge? node1 n = some edge1Attrs →
      s.1.edge? node0 n = some (mergeAttrs summary (edgeName node0 n) edge0Attrs edge1Attrs)
  added : ∀ p, p ∈ s.2.addedUpdatedEdges ↔ p ∈ start.2.addedUpdatedEdges ∨
    ∃ n ∈ seen, n ∉ nodes ∧ p = getFromTo node0 n
  removed : ∀ p, p ∈ s.2.removedEdges ↔ p ∈ start.2.removedEdges ∨
    ∃ n ∈ seen, p = getFromTo node1 n

theorem Moved.next {start s : KGraph × GraphChange} {seen : List String} {n : String}
    (h : Moved summary nodes node0 node1 start seen s) (hnode0 : node0 ∈ start.1.nodes.keys)
    (hnode1 : node1 ∈ nodes) (hne : node1 ≠ node0) (hn : n ∉ seen)
    (hedge1 : (start.1.edge? node1 n).isSome)
    (hedge0 : n ∉ nodes → n ∈ node0Neighbors ∧ (start.1.edge? node0 n).isSome) :
    Moved summary nodes node0 node1 start (seen ++ [n])
      (mergeEdge summary nodes node0 node0Neighbors node1 s n) := by
  obtain ⟨graph, change⟩ := s
  have hremoved : ∀ p, p ∈ insert (getFromTo node1 n) change.removedEdges ↔
      p ∈ start.2.removedEdges ∨ ∃ m ∈ seen ++ [n], p = getFromTo node1 m := by
    intro p
    rw [Finset.mem_insert, h.removed]
    simp only [List.mem_append, List.mem_singleton, or_and_right, exists_or, exists_eq_left]
    rw [or_comm, or_assoc]
  have hkept1 : graph.edge? node1 n = start.1.edge? node1 n :=
    h.kept _ fun m _ hm => ne_outer hnode1 hne hm
  by_cases hinside : n ∈ nodes
  · rw [mergeEdge_inside hinside]
    exact
      { nodes_eq := h.nodes_eq
        kept := fun e he => h.kept e fun m hm => he m (List.mem_append_left _ hm)
        merged := by
          intro m hm hout
          have hseen : m ∈ seen := (List.mem_append.mp hm).resolve_right fun hmem =>
            hout (List.mem_singleton.mp hmem ▸ hinside)
          exact h.merged m hseen hout
        added := by
          intro p
          rw [h.added]
          simp [or_and_right, exists_or, hinside]
        removed := hremoved }
  · obtain ⟨hshared, hsome0⟩ := hedge0 hinside
    obtain ⟨edge1Attrs, hedge1⟩ := Option.isSome_iff_exists.mp hedge1
    obtain ⟨edge0Attrs, hedge0⟩ := Option.isSome_iff_exists.mp hsome0
    have hkept0 : graph.edge? node0 n = start.1.edge? node0 n := by
      refine h.kept _ fun m hm _ heq => hn ?_
      rcases Sym2.eq_iff.mp heq with ⟨-, rfl⟩ | ⟨rfl, rfl⟩ <;> exact hm
    have hnodes : node0 ∈ graph.nodes.keys ∧ n ∈ graph.nodes.keys := by
      rw [show graph.nodes = start.1.nodes from h.nodes_eq]
      exact ⟨hnode0, (AttrGraph.mem_nodes_of_edge? hsome0).2⟩
    rw [mergeEdge_shared hinside hshared (hkept1.trans hedge1) (hkept0.trans hedge0)]
    have hset : ∀ e, (graph.setEdge node0 n
        (mergeAttrs summary (edgeName node0 n) edge0Attrs edge1Attrs)).edges.get? e =
          if e = s(node0, n) then
            some (mergeAttrs summary (edgeName node0 n) edge0Attrs edge1Attrs)
          else graph.edges.get? e := fun e => AttrGraph.get?_setEdge hnodes.1 hnodes.2
    exact
      { nodes_eq := AttrGraph.nodes_setEdge.trans h.nodes_eq
        kept := by
          intro e he
          rw [hset, if_neg (he n (by simp) hinside)]
          exact h.kept e fun m hm => he m (List.mem_append_left _ hm)
        merged := by
          intro m hm hout old0 old1 hold0 hold1
          rw [AttrGraph.edge?, hset]
          by_cases hmn : m = n
          · subst hmn
            obtain rfl := Option.some.inj (hold0.symm.trans hedge0)
            obtain rfl := Option.some.inj (hold1.symm.trans hedge1)
            exact if_pos rfl
          · have hseen : m ∈ seen :=
              (List.mem_append.mp hm).resolve_right fun hmem => hmn (List.mem_singleton.mp hmem)
            have hother : s(node0, m) ≠ s(node0, n) := fun heq => hmn (Sym2.congr_right.mp heq)
            rw [if_neg hother]
            exact h.merged m hseen hout old0 old1 hold0 hold1
        added := by
          intro p
          rw [Finset.mem_insert, h.added]
          simp only [List.mem_append, List.mem_singleton, or_and_right, exists_or,
            exists_eq_left, hinside, not_false_eq_true, true_and]
          rw [or_comm, or_assoc]
        removed := hremoved }

/-- The whole loop over the neighbours of `node1`. -/
theorem Moved.of_foldl {start : KGraph × GraphChange} {neighbors : List String}
    (hnodup : neighbors.Nodup) (hnode0 : node0 ∈ start.1.nodes.keys) (hnode1 : node1 ∈ nodes)
    (hne : node1 ≠ node0)
    (hedge1 : ∀ n ∈ neighbors, (start.1.edge? node1 n).isSome)
    (hedge0 : ∀ n ∈ neighbors, n ∉ nodes →
      n ∈ node0Neighbors ∧ (start.1.edge? node0 n).isSome) :
    Moved summary nodes node0 node1 start neighbors
      (neighbors.foldl (mergeEdge summary nodes node0 node0Neighbors node1) start) := by
  induction neighbors using List.reverseRecOn with
  | nil =>
      exact
        { nodes_eq := rfl
          kept := fun _ _ => rfl
          merged := fun n hn => absurd hn List.not_mem_nil
          added := by simp
          removed := by simp }
  | append_singleton seen n ih =>
      obtain ⟨hseen, -, hdisjoint⟩ := List.nodup_append.mp hnodup
      have hn : n ∉ seen := fun hmem => hdisjoint n hmem n (by simp) rfl
      rw [List.foldl_append, List.foldl_cons, List.foldl_nil]
      exact (ih hseen (fun m hm => hedge1 m (List.mem_append_left _ hm)) fun m hm =>
        hedge0 m (List.mem_append_left _ hm)).next hnode0 hnode1 hne hn
        (hedge1 n (by simp)) (hedge0 n (by simp))

end

/-! ## One node -/

section

variable {summary : String → String → String} {visit : Visit String} {node0 node1 : String}
  {removed done : List String} {graph : KGraph} {change : GraphChange}

/-- What has happened when the nodes `done` are merged. -/
structure Merged (summary : String → String → String) (graph : KGraph) (node0 : String)
    (nodes done : List String) (s : KGraph × GraphChange) : Prop where
  nodes_eq : s.1.nodes.keys = graph.nodes.keys \ done.toFinset
  outer : ∀ n ∉ nodes, s.1.edge? node0 n =
    combine summary (edgeName node0 n) (edgesTo graph (node0 :: done) n)
  other : ∀ e, (∀ n ∉ nodes, e ≠ s(node0, n)) →
    s.1.edges.get? e = if ∃ x ∈ done, x ∈ e then none else graph.edges.get? e
  added : ∀ p, p ∈ s.2.addedUpdatedEdges ↔
    ∃ n ∉ nodes, (∃ node1 ∈ done, (graph.edge? node1 n).isSome) ∧ p = getFromTo node0 n
  removed : ∀ p, p ∈ s.2.removedEdges ↔
    ∃ node1 ∈ done, ∃ n, (graph.edge? node1 n).isSome ∧ p = getFromTo node1 n

theorem keys_mergeNodeAttrs (graph : KGraph) (node0 node1 : String) :
    (mergeNodeAttrs graph node0 node1).nodes.keys = graph.nodes.keys ∧
      (mergeNodeAttrs graph node0 node1).edges = graph.edges := by
  rw [mergeNodeAttrs]
  split
  · exact ⟨rfl, rfl⟩
  · exact ⟨AttrGraph.keys_updateNode, AttrGraph.edges_updateNode⟩

theorem combine_append_singleton {name : String} {attrs : EdgeAttrs} {rest : List EdgeAttrs}
    (last : EdgeAttrs) (h : combine summary name rest = some attrs) :
    combine summary name (rest ++ [last]) = some (mergeAttrs summary name attrs last) := by
  cases rest with
  | nil => cases h
  | cons first rest =>
      obtain rfl := Option.some.inj h
      simp [combine]

theorem isSome_combine {name : String} {l : List EdgeAttrs} :
    (combine summary name l).isSome ↔ l ≠ [] := by
  cases l <;> simp [combine]

theorem Merged.edge1 {nodes : List String} {s : KGraph × GraphChange}
    (h : Merged summary graph node0 nodes done s) (hnode1 : node1 ∈ nodes) (hne : node1 ≠ node0)
    (hnew : node1 ∉ done) (n : String) :
    s.1.edge? node1 n = if n ∈ done then none else graph.edge? node1 n := by
  have hiff : (∃ x ∈ done, x ∈ s(node1, n)) ↔ n ∈ done := by
    constructor
    · rintro ⟨x, hx, hmem⟩
      rcases Sym2.mem_iff.mp hmem with rfl | rfl
      · exact absurd hx hnew
      · exact hx
    · exact fun hn => ⟨n, hn, Sym2.mem_mk_right node1 n⟩
  rw [AttrGraph.edge?, h.other _ fun m hm => ne_outer hnode1 hne hm]
  simp only [hiff]
  rfl

theorem Merged.next {nodes : List String} {s : KGraph × GraphChange}
    (h : Merged summary graph node0 nodes done s)
    (hgraph : node0 ∈ graph.nodes.keys) (hdone0 : node0 ∉ done) (hdone : ∀ n ∈ done, n ∈ nodes)
    (hnode1 : node1 ∈ nodes) (hne : node1 ≠ node0) (hnew : node1 ∉ done)
    (hshared : ∀ n ∉ nodes, (graph.edge? node1 n).isSome → (graph.edge? node0 n).isSome) :
    Merged summary graph node0 nodes (done ++ [node1])
      (mergeNode summary visit nodes node0 (graph.neighbors node0) s node1) := by
  let start := (mergeNodeAttrs s.1 node0 node1, s.2)
  obtain ⟨hkeys, hedges⟩ : start.1.nodes.keys = s.1.nodes.keys ∧ start.1.edges = s.1.edges :=
    keys_mergeNodeAttrs s.1 node0 node1
  have hedge : ∀ u v, start.1.edge? u v = s.1.edge? u v := fun u v => by
    rw [AttrGraph.edge?, hedges, AttrGraph.edge?]
  have hedge1 := h.edge1 hnode1 hne hnew
  have houtside : ∀ n ∉ nodes, s.1.edge? node1 n = graph.edge? node1 n := fun n hn => by
    rw [hedge1, if_neg fun hmem => hn (hdone n hmem)]
  have hvisit : ∀ n, n ∈ visit.list (start.1.neighbors node1) ↔ (s.1.edge? node1 n).isSome := by
    intro n
    rw [visit.mem_iff, AttrGraph.mem_neighbors_iff, hedge]
  have hcombined : ∀ n ∉ nodes, (graph.edge? node1 n).isSome → (s.1.edge? node0 n).isSome := by
    intro n hn hsome
    rw [h.outer n hn, isSome_combine]
    obtain ⟨attrs, hattrs⟩ := Option.isSome_iff_exists.mp (hshared n hn hsome)
    simp [edgesTo, hattrs]
  have hmoved : Moved summary nodes node0 node1 start (visit.list (start.1.neighbors node1))
      ((visit.list (start.1.neighbors node1)).foldl
        (mergeEdge summary nodes node0 (graph.neighbors node0) node1) start) := by
    refine Moved.of_foldl (visit.nodup _) ?_ hnode1 hne ?_ ?_
    · rw [hkeys, h.nodes_eq]
      simp [hgraph, hdone0]
    · intro n hn
      rw [hedge]
      exact (hvisit n).mp hn
    · intro n hn hout
      have hsome := (hvisit n).mp hn
      rw [houtside n hout] at hsome
      refine ⟨AttrGraph.mem_neighbors_iff.mpr (hshared n hout hsome), ?_⟩
      rw [hedge]
      exact hcombined n hout hsome
  exact
    { nodes_eq := by
        have hnodes := congrArg Table.keys hmoved.nodes_eq
        rw [hkeys, h.nodes_eq] at hnodes
        ext n
        simp only [mergeNode, AttrGraph.keys_removeNode, Finset.mem_erase, Finset.mem_sdiff,
          List.toFinset_append, Finset.mem_union, List.mem_toFinset, List.mem_singleton]
        rw [show (_ : KGraph).nodes.keys = _ from hnodes]
        simp only [Finset.mem_sdiff, List.mem_toFinset]
        tauto
      outer := by
        intro n hn
        have hapart : node1 ∉ s(node0, n) := fun hmem =>
          (Sym2.mem_iff.mp hmem).elim hne fun heq => hn (heq ▸ hnode1)
        rw [AttrGraph.edge?, mergeNode, AttrGraph.get?_removeNode, if_neg hapart,
          ← List.cons_append]
        cases hedge1n : graph.edge? node1 n with
        | none =>
            have hnot : n ∉ visit.list (start.1.neighbors node1) := fun hmem => by
              have hsome := (hvisit n).mp hmem
              rw [houtside n hn, hedge1n] at hsome
              cases hsome
            have hkept := hmoved.kept s(node0, n) fun m hm hout heq =>
              hnot (by rwa [Sym2.congr_right.mp heq])
            rw [hkept, hedges, edgesTo_append_none _ hedge1n]
            exact h.outer n hn
        | some edge1Attrs =>
            have hsome1 : (graph.edge? node1 n).isSome := by rw [hedge1n, Option.isSome_some]
            have hmem := (hvisit n).mpr (by rwa [houtside n hn])
            obtain ⟨edge0Attrs, hedge0n⟩ := Option.isSome_iff_exists.mp (hcombined n hn hsome1)
            have hmerged := hmoved.merged n hmem hn edge0Attrs edge1Attrs
              ((hedge node0 n).trans hedge0n)
              ((hedge node1 n).trans ((houtside n hn).trans hedge1n))
            rw [edgesTo_append_some _ hedge1n]
            exact hmerged.trans
              (combine_append_singleton edge1Attrs ((h.outer n hn).symm.trans hedge0n)).symm
      other := by
        intro e he
        have hkept := hmoved.kept e fun n _ hn => he n hn
        rw [mergeNode, AttrGraph.get?_removeNode, hkept, hedges, h.other e he]
        by_cases hmem : node1 ∈ e
        · rw [if_pos hmem, if_pos ⟨node1, by simp, hmem⟩]
        · have hiff : (∃ x ∈ done ++ [node1], x ∈ e) ↔ ∃ x ∈ done, x ∈ e := by
            simp [or_and_right, exists_or, hmem]
          simp only [if_neg hmem, hiff]
      added := by
        intro p
        refine (hmoved.added p).trans ((or_congr_left (h.added p)).trans ?_)
        constructor
        · rintro (⟨n, hn, ⟨m, hm, hsome⟩, rfl⟩ | ⟨n, hmem, hn, rfl⟩)
          · exact ⟨n, hn, ⟨m, List.mem_append_left _ hm, hsome⟩, rfl⟩
          · have hsome := (hvisit n).mp hmem
            rw [houtside n hn] at hsome
            exact ⟨n, hn, ⟨node1, by simp, hsome⟩, rfl⟩
        · rintro ⟨n, hn, ⟨m, hm, hsome⟩, rfl⟩
          rcases List.mem_append.mp hm with hm | hm
          · exact .inl ⟨n, hn, ⟨m, hm, hsome⟩, rfl⟩
          · obtain rfl := List.mem_singleton.mp hm
            exact .inr ⟨n, (hvisit n).mpr (by rwa [houtside n hn]), hn, rfl⟩
      removed := by
        intro p
        refine (hmoved.removed p).trans ((or_congr_left (h.removed p)).trans ?_)
        constructor
        · rintro (⟨m, hm, n, hsome, rfl⟩ | ⟨n, hmem, rfl⟩)
          · exact ⟨m, List.mem_append_left _ hm, n, hsome, rfl⟩
          · have hsome := (hvisit n).mp hmem
            rw [hedge1] at hsome
            split at hsome
            · cases hsome
            · exact ⟨node1, by simp, n, hsome, rfl⟩
        · rintro ⟨m, hm, n, hsome, rfl⟩
          rcases List.mem_append.mp hm with hm | hm
          · exact .inl ⟨m, hm, n, hsome, rfl⟩
          · obtain rfl := List.mem_singleton.mp hm
            by_cases hn : n ∈ done
            · rw [AttrGraph.edge?_comm] at hsome
              exact .inl ⟨n, hn, m, hsome, getFromTo_comm m n⟩
            · exact .inr ⟨n, (hvisit n).mpr (by rwa [hedge1, if_neg hn]), rfl⟩ }

/-- The whole loop, when the first node has every neighbour from the start. -/
theorem Merged.of_foldl (hnodup : (node0 :: removed).Nodup) (hgraph : node0 ∈ graph.nodes.keys)
    (hchange : change.addedUpdatedEdges = ∅ ∧ change.removedEdges = ∅)
    (hshared : ∀ node1 ∈ removed, ∀ n ∉ node0 :: removed,
      (graph.edge? node1 n).isSome → (graph.edge? node0 n).isSome) {done : List String}
    (hdone : done <+: removed) :
    Merged summary graph node0 (node0 :: removed) done
      (done.foldl (mergeNode summary visit (node0 :: removed) node0 (graph.neighbors node0))
        (graph, change)) := by
  obtain ⟨hnode0, hremoved⟩ := List.nodup_cons.mp hnodup
  induction done using List.reverseRecOn with
  | nil =>
      exact
        { nodes_eq := by simp
          outer := by
            intro n _
            cases hedge : graph.edge? node0 n <;> simp [edgesTo, combine, hedge]
          other := by simp
          added := by simp [hchange.1]
          removed := by simp [hchange.2] }
  | append_singleton done node1 ih =>
      have hbefore := (List.prefix_append done [node1]).trans hdone
      have hmem : node1 ∈ removed := hdone.subset (by simp)
      have hnew : node1 ∉ done := fun hmem =>
        (List.nodup_append.mp (hremoved.sublist hdone.sublist)).2.2 node1 hmem node1 (by simp) rfl
      rw [List.foldl_append, List.foldl_cons, List.foldl_nil]
      exact (ih hbefore).next hgraph (fun hmem => hnode0 (hbefore.subset hmem))
        (fun n hn => List.mem_cons_of_mem _ (hbefore.subset hn)) (List.mem_cons_of_mem _ hmem)
        (fun heq => hnode0 (heq ▸ hmem)) hnew (hshared node1 hmem)

/-- Only edges to neighbours that the first node had before are recorded. -/
def OnlyShared (node0 : String) (node0Neighbors : Finset String) (change : GraphChange) : Prop :=
  ∀ p ∈ change.addedUpdatedEdges, ∃ n ∈ node0Neighbors, p = getFromTo node0 n

theorem OnlyShared.mergeEdge {nodes : List String} {node0Neighbors : Finset String}
    {s : KGraph × GraphChange} {neighbor : String} (h : OnlyShared node0 node0Neighbors s.2) :
    OnlyShared node0 node0Neighbors
      (mergeEdge summary nodes node0 node0Neighbors node1 s neighbor).2 := by
  simp only [GraphRag.mergeEdge]
  split
  · exact h
  · split
    · exact h
    · split
      · rename_i hshared
        split
        · exact h
        · intro p hp
          rcases Finset.mem_insert.mp hp with rfl | hp
          · exact ⟨neighbor, hshared, rfl⟩
          · exact h p hp
      · exact h

theorem OnlyShared.mergeNodes {nodes : List String} {node0Neighbors : Finset String}
    {s : KGraph × GraphChange} (h : OnlyShared node0 node0Neighbors s.2) :
    OnlyShared node0 node0Neighbors
      (removed.foldl (mergeNode summary visit nodes node0 node0Neighbors) s).2 := by
  induction removed generalizing s with
  | nil => exact h
  | cons node1 removed ih =>
      refine ih ?_
      rw [mergeNode]
      generalize visit.list _ = neighbors
      generalize hstart : (mergeNodeAttrs s.1 node0 node1, s.2) = start
      have hloop : OnlyShared node0 node0Neighbors start.2 := hstart ▸ h
      clear hstart
      induction neighbors generalizing start with
      | nil => exact hloop
      | cons neighbor neighbors ih => exact ih _ hloop.mergeEdge

/-! ## All nodes -/

/-- What is combined of some edges. -/
theorem combine_spec {name : String} {l : List EdgeAttrs} {attrs : EdgeAttrs}
    (h : combine summary name l = some attrs) :
    attrs.weight = (l.map EdgeAttrs.weight).sum ∧
      (∀ k, k ∈ attrs.keywords ↔ ∃ a ∈ l, k ∈ a.keywords) ∧
      ∀ k, k ∈ attrs.sourceId ↔ ∃ a ∈ l, k ∈ a.sourceId := by
  induction l using List.reverseRecOn generalizing attrs with
  | nil => cases h
  | append_singleton l last ih =>
      cases hcombine : combine summary name l with
      | none =>
          have hnil : l = [] := by
            by_contra hne
            have hsome : (combine summary name l).isSome := isSome_combine.mpr hne
            simp [hcombine] at hsome
          subst hnil
          obtain rfl := Option.some.inj h
          simp
      | some before =>
          obtain rfl := Option.some.inj ((combine_append_singleton last hcombine).symm.trans h)
          obtain ⟨hweight, hkeywords, hsource⟩ := ih hcombine
          refine ⟨?_, fun k => ?_, fun k => ?_⟩
          · simp [mergeAttrs, hweight]
          · simp [mergeAttrs, mem_sortedSet, hkeywords, or_and_right, exists_or]
          · simp [mergeAttrs, mem_sortedSet, hsource, or_and_right, exists_or]

/-- What a merge into `node0` has to keep: each outside neighbour has one edge that
combines the edges of all merged nodes, and the change names the edges that took up
others and the edges that are gone. -/
structure Conserved (summary : String → String → String) (graph : KGraph) (node0 : String)
    (removed : List String) (result : KGraph × GraphChange) : Prop where
  nodes_eq : result.1.nodes.keys = graph.nodes.keys \ removed.toFinset
  edge_iff : ∀ n ∉ node0 :: removed, (result.1.edge? node0 n).isSome ↔
    ∃ node ∈ node0 :: removed, (graph.edge? node n).isSome
  edge : ∀ n ∉ node0 :: removed, result.1.edge? node0 n =
    combine summary (edgeName node0 n) (edgesTo graph (node0 :: removed) n)
  data : ∀ n ∉ node0 :: removed, ∀ attrs, result.1.edge? node0 n = some attrs →
    attrs.weight = ((edgesTo graph (node0 :: removed) n).map EdgeAttrs.weight).sum ∧
      (∀ k, k ∈ attrs.keywords ↔
        ∃ a ∈ edgesTo graph (node0 :: removed) n, k ∈ a.keywords) ∧
      ∀ k, k ∈ attrs.sourceId ↔ ∃ a ∈ edgesTo graph (node0 :: removed) n, k ∈ a.sourceId
  other : ∀ e, (∀ n ∉ node0 :: removed, e ≠ s(node0, n)) →
    result.1.edges.get? e = if ∃ node ∈ removed, node ∈ e then none else graph.edges.get? e
  addedUpdatedEdges : ∀ p, p ∈ result.2.addedUpdatedEdges ↔
    ∃ n ∉ node0 :: removed,
      (∃ node ∈ removed, (graph.edge? node n).isSome) ∧ p = getFromTo node0 n
  removedEdges : ∀ p, p ∈ result.2.removedEdges ↔
    ∃ node ∈ removed, ∃ n, (graph.edge? node n).isSome ∧ p = getFromTo node n

theorem Merged.conserved {s : KGraph × GraphChange}
    (h : Merged summary graph node0 (node0 :: removed) removed s) :
    Conserved summary graph node0 removed s where
  nodes_eq := h.nodes_eq
  edge_iff := by
    intro n hn
    rw [h.outer n hn, isSome_combine, ne_eq, edgesTo, List.filterMap_eq_nil_iff]
    push Not
    simp only [Option.ne_none_iff_isSome]
  edge := h.outer
  data := fun n hn attrs hattrs => combine_spec ((h.outer n hn).symm.trans hattrs)
  other := h.other
  addedUpdatedEdges := h.added
  removedEdges := h.removed

/-- The summary at the end is about the node alone. -/
theorem Conserved.updateNode {s : KGraph × GraphChange}
    (h : Conserved summary graph node0 removed s) (f : NodeAttrs → NodeAttrs) :
    Conserved summary graph node0 removed (s.1.updateNode node0 f, s.2) where
  nodes_eq := AttrGraph.keys_updateNode.trans h.nodes_eq
  edge_iff := h.edge_iff
  edge := h.edge
  data := h.data
  other := h.other
  addedUpdatedEdges := h.addedUpdatedEdges
  removedEdges := h.removedEdges

theorem onlyShared_mergeGraphNodes :
    OnlyShared node0 (graph.neighbors node0)
      (mergeGraphNodes summary visit graph (node0 :: removed) {}).2 := by
  cases removed with
  | nil => simp [mergeGraphNodes, OnlyShared]
  | cons node1 removed =>
      let start : KGraph × GraphChange :=
        (graph, { addedUpdatedNodes := {node0}, removedNodes := ∅ ∪ (node1 :: removed).toFinset })
      have hstart : OnlyShared node0 (graph.neighbors node0) start.2 :=
        fun p hp => absurd hp (Finset.notMem_empty p)
      have hloop : OnlyShared node0 (graph.neighbors node0)
          ((node1 :: removed).foldl (mergeNode summary visit (node0 :: node1 :: removed) node0
            (graph.neighbors node0)) start).2 := hstart.mergeNodes
      exact hloop

/-- A merge conserves the edges exactly when every outside neighbour of a removed node
was a neighbour of the surviving node before. -/
theorem merge_conserves_iff (summary : String → String → String) (visit : Visit String)
    (graph : KGraph) (node0 : String) (removed : List String)
    (hnodup : (node0 :: removed).Nodup)
    (hgraph : ∀ node ∈ node0 :: removed, node ∈ graph.nodes.keys) :
    Conserved summary graph node0 removed
        (mergeGraphNodes summary visit graph (node0 :: removed) {}) ↔
      ∀ node ∈ removed, ∀ n ∉ node0 :: removed,
        (graph.edge? node n).isSome → (graph.edge? node0 n).isSome := by
  constructor
  · intro h node hnode n hn hsome
    have hrecorded := (h.addedUpdatedEdges _).mpr ⟨n, hn, ⟨node, hnode, hsome⟩, rfl⟩
    obtain ⟨m, hm, heq⟩ := onlyShared_mergeGraphNodes _ hrecorded
    obtain rfl := getFromTo_injective node0 heq
    exact AttrGraph.mem_neighbors_iff.mp hm
  · intro hshared
    have hnode0 := hgraph node0 List.mem_cons_self
    cases removed with
    | nil =>
        have hmerged : Merged summary graph node0 [node0] []
            ([].foldl (mergeNode summary visit [node0] node0 (graph.neighbors node0))
              (graph, {})) :=
          Merged.of_foldl hnodup hnode0 ⟨rfl, rfl⟩ hshared List.prefix_rfl
        exact hmerged.conserved
    | cons node1 removed =>
        exact (Merged.of_foldl hnodup hnode0 ⟨rfl, rfl⟩ hshared
          List.prefix_rfl).conserved.updateNode _

end

/-! ## Two duplicates of a node -/

/-- Both nodes know the neighbour. -/
theorem conserved_shared :
    Conserved (fun _ d => d)
      (((edgeless {"A", "B", "N"}).setEdge "A" "N" (relation 1)).setEdge "B" "N" (relation 2))
      "A" ["B"]
      (mergeGraphNodes (fun _ d => d) visitSorted
        (((edgeless {"A", "B", "N"}).setEdge "A" "N" (relation 1)).setEdge "B" "N" (relation 2))
        ["A", "B"] {}) := by
  refine (merge_conserves_iff _ _ _ _ _ (by decide) (by decide)).mpr fun node hnode n hn hsome => ?_
  have hnode : node = "B" := List.mem_singleton.mp hnode
  have hmem := (AttrGraph.mem_nodes_of_edge? hsome).2
  rw [AttrGraph.nodes_setEdge, AttrGraph.nodes_setEdge] at hmem
  have hthird : n = "N" := by
    simp only [edgeless, Finset.mem_insert, Finset.mem_singleton] at hmem
    simp only [List.mem_cons, List.not_mem_nil, or_false, not_or] at hn
    tauto
  rw [hthird]
  decide

/-- Two removed nodes know a neighbour that the surviving one does not: the weight 1 of
the first is lost. -/
theorem not_conserved_new :
    ¬ Conserved (fun _ d => d)
      (((edgeless {"A", "B", "C", "N"}).setEdge "B" "N" (relation 1)).setEdge "C" "N" (relation 2))
      "A" ["B", "C"]
      (mergeGraphNodes (fun _ d => d) visitSorted
        (((edgeless {"A", "B", "C", "N"}).setEdge "B" "N" (relation 1)).setEdge "C" "N"
          (relation 2)) ["A", "B", "C"] {}) := by
  intro h
  have hdata := h.data "N" (by decide) (relation 2) (by decide +kernel)
  exact absurd hdata.1 (by decide +kernel)

end RagflowMineru.GraphRag
